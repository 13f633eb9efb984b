import PynqPrio.FdtLookup
import PynqPrio.FdtWrite

/-!
# What is written in sequence is read

Every call adds a tag to the structure block or refuses, and leaves what is there. So after any
calls the blob has the tags of those that succeeded, and `fdt_finish` gives each property the
place of its name.
-/
namespace PynqPrio.Libfdt
open Formats

section Frames

variable {fdt fdt' fdt'' : Fdt} {lo hi p i : ℕ} {bs : List Byte}

/-- All that stands outside of a range stays, and the memory has the same size. -/
structure Keeps (fdt fdt' : Fdt) (lo hi : ℕ) : Prop where
  length : fdt'.bytes.length = fdt.bytes.length
  hasAt : ∀ {q : ℕ} {xs : List Byte}, HasAt fdt.bytes q xs → q + xs.length ≤ lo ∨ hi ≤ q → HasAt fdt'.bytes q xs

theorem Keeps.trans (h : Keeps fdt fdt' lo hi) (h' : Keeps fdt' fdt'' lo hi) : Keeps fdt fdt'' lo hi :=
  ⟨h'.length.trans h.length, fun hq hout => h'.hasAt (h.hasAt hq hout) hout⟩

theorem Keeps.mono {lo' hi' : ℕ} (h : Keeps fdt fdt' lo hi) (hlo : lo' ≤ lo) (hhi : hi ≤ hi') :
    Keeps fdt fdt' lo' hi' :=
  ⟨h.length, fun hq hout => h.hasAt hq (by omega)⟩

theorem keeps_store (h : p + bs.length ≤ fdt.bytes.length) : Keeps fdt (fdt.store p bs) p (p + bs.length) :=
  ⟨length_overwrite h, fun hq hout => hq.overwrite hout⟩

/-- Bytes are stored in the memory and nowhere else. -/
theorem storeBytes_spec (fdt : Fdt) (p : ℕ) (bs : List Byte) (h : p + bs.length ≤ fdt.bytes.length) :
    ∃ fdt', storeBytes fdt p bs = .ok fdt' ∧ Keeps fdt fdt' p (p + bs.length) ∧ HasAt fdt'.bytes p bs := by
  refine ⟨fdt.store p bs, ?_, keeps_store h, hasAt_overwrite (Nat.le_of_add_right_le h)⟩
  rw [storeBytes, if_neg (Nat.not_lt.mpr h)]
  rfl

theorem place_natCast (n : ℕ) : place n = .ok n := by
  rw [place, if_neg (Int.not_lt.mpr (Int.natCast_nonneg n)), Int.toNat_natCast]
  rfl

/-- A word of the header outside of the range stays. -/
theorem Keeps.word (h : Keeps fdt fdt' lo hi) (hword : i < 10) (hout : 4 * i + 4 ≤ lo ∨ hi ≤ 4 * i) :
    fdt'.word i = fdt.word i := by
  have hheader := fdt.header
  have hle : 4 * i + 4 ≤ fdt.bytes.length := by omega
  have hlen := length_slice hle
  have hplace := h.hasAt (hasAt_slice hle) (by rw [hlen]; exact hout)
  rw [Fdt.word, Fdt.word, hplace.slice hlen]

theorem keeps_setWord (fdt : Fdt) (hword : i < 10) (v : ℕ) : Keeps fdt (fdt.setWord i v) (4 * i) (4 * i + 4) := by
  have hheader := fdt.header
  have hkeeps := keeps_store (show 4 * i + (toBytes 4 v).length ≤ fdt.bytes.length by rw [length_toBytes]; omega)
  rwa [length_toBytes] at hkeeps

theorem word_setWord (fdt : Fdt) (hword : i < 10) {v : ℕ} (hv : v < 2 ^ 32) : (fdt.setWord i v).word i = v := by
  have hheader := fdt.header
  have hplace : HasAt (fdt.setWord i v).bytes (4 * i) (toBytes 4 v) := hasAt_overwrite (by omega)
  rw [Fdt.word, hplace.slice (length_toBytes 4 v), ofBytes_toBytes_of_lt hv]

theorem word_setWord_of_ne (fdt : Fdt) {j : ℕ} (hword : i < 10) (hj : j < 10) (hne : j ≠ i) (v : ℕ) :
    (fdt.setWord i v).word j = fdt.word j :=
  (keeps_setWord fdt hword v).word hj (by omega)

theorem word_setWord_eq (fdt : Fdt) {j v : ℕ} (hword : i < 10) (hv : v < 2 ^ 32) (hj : j < 10) :
    (fdt.setWord i v).word j = if j = i then v else fdt.word j := by
  split
  · next heq =>
    subst heq
    exact word_setWord fdt hword hv
  · next hne => exact word_setWord_of_ne fdt hword hj hne v

theorem length_setWord (fdt : Fdt) (hword : i < 10) (v : ℕ) : (fdt.setWord i v).bytes.length = fdt.bytes.length :=
  (keeps_setWord fdt hword v).length

end Frames

section Entries

/-- What a call adds to the structure block, with the bytes up to the next tag. The name of a property
is `k` bytes in front of the end of the strings. -/
inductive Entry
  | beginNode (name : CString) (pad : List Byte)
  | prop (name : CString) (k : ℕ) (val pad : List Byte)
  | endNode
  | fin

namespace Entry

def tag : Entry → Tag
  | beginNode name _ => .beginNode name
  | prop name _ val _ => .prop name val
  | endNode => .endNode
  | fin => .fin

/-- The bytes of an entry, where `nameoff` is what stands for the place of a name. -/
def bytes (nameoff : ℕ → ℕ) : Entry → List Byte
  | beginNode name pad => toBytes 4 fdtBeginNode ++ (name.bytes ++ pad)
  | prop _ k val pad =>
    toBytes 4 fdtProp ++ (toBytes 4 val.length ++ (toBytes 4 (nameoff k) ++ (val ++ pad)))
  | endNode => toBytes 4 fdtEndNode
  | fin => toBytes 4 fdtEnd

/-- The next tag is at a multiple of four, and the name is one of the strings. -/
def Fits (strs : List Byte) : Entry → Prop
  | beginNode name pad => name.bytes.length + pad.length = align name.bytes.length 4
  | prop name k val pad => val.length + pad.length = align val.length 4 ∧
      0 < k ∧ k ≤ strs.length ∧ HasAt strs (strs.length - k) name.bytes
  | endNode => True
  | fin => True

variable {e : Entry} {strs : List Byte} {w w' : ℕ → ℕ}

theorem length_bytes (w w' : ℕ → ℕ) (e : Entry) : (e.bytes w).length = (e.bytes w').length := by
  cases e <;> simp [bytes]

theorem Fits.dvd (h : e.Fits strs) (w : ℕ → ℕ) : 4 ∣ (e.bytes w).length := by
  cases e with
  | beginNode name pad =>
    have hpad : name.bytes.length + pad.length = align name.bytes.length 4 := h
    have hdvd := dvd_align name.bytes.length 4
    rw [bytes, List.length_append, List.length_append, length_toBytes]
    omega
  | prop name k val pad =>
    have hpad := h.1
    have hdvd := dvd_align val.length 4
    simp only [bytes, List.length_append, length_toBytes]
    omega
  | endNode => exact ⟨1, length_toBytes 4 _⟩
  | fin => exact ⟨1, length_toBytes 4 _⟩

/-- More strings in front do not change what is at the end. -/
theorem Fits.strings (h : e.Fits strs) (s : List Byte) : e.Fits (s ++ strs) := by
  cases e with
  | beginNode name pad => exact h
  | prop name k val pad =>
    obtain ⟨hpad, hpos, hle, hname⟩ := h
    have hall := (hasAt_zero_self (s ++ strs)).right.trans hname
    refine ⟨hpad, hpos, by rw [List.length_append]; omega, ?_⟩
    rw [List.length_append, Nat.add_sub_assoc hle]
    rwa [Nat.zero_add] at hall
  | endNode => trivial
  | fin => trivial

end Entry

def body (w : ℕ → ℕ) (es : List Entry) : List Byte := es.flatMap (·.bytes w)

theorem body_append (w : ℕ → ℕ) (es es' : List Entry) : body w (es ++ es') = body w es ++ body w es' :=
  List.flatMap_append

theorem length_body (w w' : ℕ → ℕ) (es : List Entry) : (body w es).length = (body w' es).length := by
  induction es with
  | nil => rfl
  | cons e es ih =>
    rw [body, body, List.flatMap_cons, List.flatMap_cons, List.length_append, List.length_append,
      Entry.length_bytes w w']
    exact congrArg (_ + ·) ih

end Entries

section Drafts

/-- Before `fdt_finish` the place of a name is counted down from the end of the strings. -/
def draftOff (k : ℕ) : ℕ := 2 ^ 32 - k

/-- The buffer between `fdt_create` and `fdt_finish`. -/
structure Drafts (fdt : Fdt) (reserves : List Byte) (es : List Entry) (strs : List Byte) : Prop where
  magic : fdt.magic = fdtSwMagic
  version : fdt.version = lastSupportedVersion
  comp : fdt.lastCompVersion = firstSupportedVersion
  rsvmap : fdt.offMemRsvmap = 48
  struct : fdt.offDtStruct = 48 + reserves.length
  sizeStruct : fdt.sizeDtStruct = (body draftOff es).length
  sizeStrings : fdt.sizeDtStrings = strs.length
  room : 48 + reserves.length + (body draftOff es).length + strs.length ≤ fdt.totalsize
  memory : fdt.totalsize ≤ fdt.bytes.length
  small : fdt.totalsize < 2 ^ 31
  reservesAt : HasAt fdt.bytes 48 reserves
  bodyAt : HasAt fdt.bytes (48 + reserves.length) (body draftOff es)
  strsAt : HasAt fdt.bytes (fdt.totalsize - strs.length) strs
  fits : ∀ e ∈ es, e.Fits strs

variable {fdt fdt' : Fdt} {reserves strs : List Byte} {es : List Entry}

theorem u64_natCast {n : ℕ} (h : n < 2 ^ 64) : u64 n = n := by
  rw [u64]
  omega

theorem u32_neg {k : ℕ} (hpos : 0 < k) (hk : k < 2 ^ 31) : u32 (-(k : ℤ)) = draftOff k := by
  rw [u32, draftOff]
  omega

/-- A negative number is a large one without its sign. -/
theorem not_u32_lt {x : ℤ} {n : ℕ} (hlo : -2 ^ 31 ≤ x) (hneg : x < 0) (hn : n ≤ 2 ^ 31) : ¬u32 x < n := by
  rw [u32]
  omega

/-- There is more space up to the strings. -/
theorem fdtGrabSpace_eq (h : Drafts fdt reserves es strs) {len : ℕ} (hlen : len < 2 ^ 63) :
    fdtGrabSpace fdt len =
      if 48 + reserves.length + (body draftOff es).length + len + strs.length ≤ fdt.totalsize then
        some (((48 + reserves.length + (body draftOff es).length : ℕ) : ℤ),
          fdt.setWord 9 ((body draftOff es).length + len))
      else none := by
  have hroom := h.room
  have hsmall := h.small
  have hspace : (fdt.totalsize : ℤ) - ((48 + reserves.length : ℕ) : ℤ) - (strs.length : ℕ) =
      ((fdt.totalsize - (48 + reserves.length) - strs.length : ℕ) : ℤ) := by omega
  have hsum : ((body draftOff es).length : ℤ) + (len : ℕ) = (((body draftOff es).length + len : ℕ) : ℤ) := rfl
  rw [fdtGrabSpace]
  simp only [h.sizeStruct, h.struct, h.sizeStrings]
  rw [hspace, int32_natCast (by omega), int32_natCast (by omega), hsum, u64_natCast (by omega),
    u64_natCast (by omega), u64_natCast (by omega)]
  split
  · rw [if_neg (by omega)]
  · rw [if_pos (by omega), u32_natCast (by omega)]
    rfl

theorem Drafts.check (h : Drafts fdt reserves es strs) : fdtSwCheckHeader fdt = 0 := by
  rw [fdtSwCheckHeader, if_pos h.magic]

/-- An entry is added where space has been grabbed. -/
theorem Drafts.add (h : Drafts fdt reserves es strs) {e : Entry} {len : ℕ}
    (hroom : 48 + reserves.length + (body draftOff es).length + len + strs.length ≤ fdt.totalsize)
    (hkeeps : Keeps (fdt.setWord 9 ((body draftOff es).length + len)) fdt'
      (48 + reserves.length + (body draftOff es).length) (48 + reserves.length + (body draftOff es).length + len))
    (he : HasAt fdt'.bytes (48 + reserves.length + (body draftOff es).length) (e.bytes draftOff))
    (hlen : (e.bytes draftOff).length = len) (hfits : e.Fits strs) : Drafts fdt' reserves (es ++ [e]) strs := by
  have hsmall := h.small
  have hsize := keeps_setWord fdt (i := 9) (by decide) ((body draftOff es).length + len)
  have hwords : ∀ i < 10, i ≠ 9 → fdt'.word i = fdt.word i := by
    intro i hi hne
    rw [hkeeps.word hi (by omega), word_setWord_of_ne fdt (by decide) hi hne]
  have hbody : body draftOff (es ++ [e]) = body draftOff es ++ e.bytes draftOff := by
    rw [body_append, body, body, List.flatMap_singleton]
  have hkept : ∀ {q : ℕ} {xs : List Byte}, HasAt fdt.bytes q xs → 40 ≤ q →
      q + xs.length ≤ 48 + reserves.length + (body draftOff es).length ∨
        48 + reserves.length + (body draftOff es).length + len ≤ q → HasAt fdt'.bytes q xs :=
    fun hq hlo hout => hkeeps.hasAt (hsize.hasAt hq (by omega)) hout
  have htotal : fdt'.totalsize = fdt.totalsize := hwords 1 (by decide) (by decide)
  constructor
  case magic => exact (hwords 0 (by decide) (by decide)).trans h.magic
  case version => exact (hwords 5 (by decide) (by decide)).trans h.version
  case comp => exact (hwords 6 (by decide) (by decide)).trans h.comp
  case rsvmap => exact (hwords 4 (by decide) (by decide)).trans h.rsvmap
  case struct => exact (hwords 2 (by decide) (by decide)).trans h.struct
  case sizeStrings => exact (hwords 8 (by decide) (by decide)).trans h.sizeStrings
  case sizeStruct =>
    rw [Fdt.sizeDtStruct, hkeeps.word (by decide) (by omega), word_setWord fdt (by decide) (by omega), hbody,
      List.length_append, hlen]
  case room =>
    rw [htotal, hbody, List.length_append]
    omega
  case memory =>
    rw [htotal, hkeeps.length, hsize.length]
    exact h.memory
  case small => exact htotal ▸ hsmall
  case reservesAt => exact hkept h.reservesAt (by decide) (by omega)
  case bodyAt =>
    rw [hbody]
    exact hasAt_append.mpr ⟨hkept h.bodyAt (by omega) (.inl le_rfl), he⟩
  case strsAt =>
    rw [htotal]
    exact hkept h.strsAt (by omega) (by omega)
  case fits =>
    intro e' he'
    obtain he' | he' := List.mem_append.mp he'
    · exact h.fits e' he'
    · rw [List.mem_singleton.mp he']
      exact hfits

/-- Either there is no space or an entry can be written to it. -/
theorem Drafts.grab (h : Drafts fdt reserves es strs) (len : ℕ) (hlen : len < 2 ^ 63) :
    fdtGrabSpace fdt len = none ∨ ∃ (p : ℕ) (fdt₁ : Fdt), fdtGrabSpace fdt len = some ((p : ℤ), fdt₁) ∧
      p + len ≤ fdt₁.bytes.length ∧ ∀ {fdt' : Fdt} {e : Entry}, Keeps fdt₁ fdt' p (p + len) →
        HasAt fdt'.bytes p (e.bytes draftOff) → (e.bytes draftOff).length = len → e.Fits strs →
          Drafts fdt' reserves (es ++ [e]) strs := by
  have hmemory := h.memory
  rw [fdtGrabSpace_eq h hlen]
  split
  · next hroom =>
    refine .inr ⟨_, _, rfl, ?_, fun hkeeps he hlen hfits => h.add hroom hkeeps he hlen hfits⟩
    rw [(keeps_setWord fdt (i := 9) (by decide) _).length]
    omega
  · exact .inl rfl

end Drafts

section Calls

inductive Call
  | beginNode (name : CString)
  | property (name : CString) (val : List Byte)
  | endNode
deriving DecidableEq

namespace Call

def run (fdt : Fdt) : Call → Access (ℤ × Fdt)
  | beginNode name => fdtBeginNodeCall fdt name
  | property name val => fdtProperty fdt name val
  | endNode => fdtEndNodeCall fdt

def tag : Call → Tag
  | beginNode name => .beginNode name
  | property name val => .prop name val
  | endNode => .endNode

/-- The lengths are of type `int`. -/
def Small : Call → Prop
  | beginNode name => name.bytes.length < 2 ^ 31
  | property name val => name.bytes.length < 2 ^ 31 ∧ val.length < 2 ^ 31
  | endNode => True

def Long (n : ℕ) : Call → Prop
  | property name _ => n < name.bytes.length
  | _ => False

end Call

variable {fdt : Fdt} {reserves strs : List Byte} {es : List Entry}

/-- What a call may do to the blob: add its tag, or have no space for it. -/
def Adds (reserves : List Byte) (es : List Entry) (tag : Tag) (r : ℤ × Fdt) : Prop :=
  ∃ strs, (r.1 = 0 ∧ ∃ e : Entry, e.tag = tag ∧ Drafts r.2 reserves (es ++ [e]) strs) ∨
    (r.1 = -errNospace ∧ Drafts r.2 reserves es strs)

theorem fdtEndNodeCall_spec (h : Drafts fdt reserves es strs) :
    ∃ r, fdtEndNodeCall fdt = .ok r ∧ Adds reserves es .endNode r := by
  rw [fdtEndNodeCall, if_neg (not_not.mpr h.check)]
  obtain hnone | ⟨p, fdt₁, hsome, hle, hadd⟩ := h.grab 4 (by decide)
  · rw [hnone]
    exact ⟨_, rfl, strs, .inr ⟨rfl, h⟩⟩
  · obtain ⟨fdt₂, hstore, hkeeps, hplace⟩ := storeBytes_spec fdt₁ p (toBytes 4 fdtEndNode) hle
    rw [hsome]
    dsimp only
    rw [place_natCast, ok_bind, hstore, ok_bind]
    exact ⟨_, rfl, strs, .inl ⟨rfl, .endNode, rfl, hadd hkeeps hplace rfl trivial⟩⟩

theorem fdtBeginNodeCall_spec (h : Drafts fdt reserves es strs) {name : CString}
    (hname : name.bytes.length < 2 ^ 31) :
    ∃ r, fdtBeginNodeCall fdt name = .ok r ∧ Adds reserves es (.beginNode name) r := by
  have hlo := le_align (a := 4) (by decide) name.bytes.length
  have hhi := align_lt (a := 4) (by decide) name.bytes.length
  rw [fdtBeginNodeCall, if_neg (not_not.mpr h.check)]
  obtain hnone | ⟨p, fdt₁, hsome, hle, hadd⟩ := h.grab (4 + align name.bytes.length 4) (by omega)
  · rw [hnone]
    exact ⟨_, rfl, strs, .inr ⟨rfl, h⟩⟩
  · have htag : (toBytes 4 fdtBeginNode).length = 4 := length_toBytes 4 _
    obtain ⟨fdt₂, hstore₁, hkeeps₁, hplace₁⟩ := storeBytes_spec fdt₁ p (toBytes 4 fdtBeginNode) (by omega)
    have hlen₁ := hkeeps₁.length
    obtain ⟨fdt₃, hstore₂, hkeeps₂, hplace₂⟩ := storeBytes_spec fdt₂ (p + 4) name.bytes (by omega)
    have hlen₂ := hkeeps₂.length
    have hpad := hasAt_slice (show p + 4 + name.bytes.length + (align name.bytes.length 4 - name.bytes.length) ≤
      fdt₃.bytes.length by omega)
    have hpadLen := length_slice (show p + 4 + name.bytes.length + (align name.bytes.length 4 - name.bytes.length) ≤
      fdt₃.bytes.length by omega)
    generalize slice fdt₃.bytes _ _ = pad at hpad hpadLen
    rw [hsome]
    dsimp only
    rw [place_natCast, ok_bind, hstore₁, ok_bind, show ((p : ℕ) : ℤ) + 4 = ((p + 4 : ℕ) : ℤ) from rfl,
      place_natCast, ok_bind, hstore₂, ok_bind]
    refine ⟨_, rfl, strs, .inl ⟨rfl, .beginNode name pad, rfl, hadd ?_ ?_ ?_ ?_⟩⟩
    · exact (hkeeps₁.mono le_rfl (by omega)).trans (hkeeps₂.mono (by omega) (by omega))
    · refine hasAt_append.mpr ⟨hkeeps₂.hasAt hplace₁ (.inl (by omega)), ?_⟩
      rw [htag]
      exact hasAt_append.mpr ⟨hplace₂, hpad⟩
    · rw [Entry.bytes, List.length_append, List.length_append]
      omega
    · rw [Entry.Fits]
      omega

theorem fdtFindString_some {strtab : List Byte} {s : CString} {i : ℕ} (h : fdtFindString strtab s = some i) :
    HasAt strtab i s.bytes := by
  rw [fdtFindString] at h
  have hslice := List.find?_some h
  have hmem := List.mem_of_find?_eq_some h
  rw [List.mem_range] at hmem
  rw [decide_eq_true_iff] at hslice
  have hplace := hasAt_slice (show i + s.bytes.length ≤ strtab.length by omega)
  rwa [hslice] at hplace

/-- More strings change nothing but the table. -/
theorem Drafts.addString (h : Drafts fdt reserves es strs) {s : CString} {fdt' : Fdt}
    (hroom : 48 + reserves.length + (body draftOff es).length + (s.bytes.length + strs.length) ≤ fdt.totalsize)
    (hkeeps : Keeps fdt fdt' (fdt.totalsize - (s.bytes.length + strs.length)) (fdt.totalsize - strs.length))
    (hplace : HasAt fdt'.bytes (fdt.totalsize - (s.bytes.length + strs.length)) s.bytes) :
    Drafts (fdt'.setWord 8 (strs.length + s.bytes.length)) reserves es (s.bytes ++ strs) := by
  have hsmall := h.small
  have hsize := keeps_setWord fdt' (i := 8) (by decide) (strs.length + s.bytes.length)
  generalize hfdt₂ : fdt'.setWord 8 (strs.length + s.bytes.length) = fdt₂ at hsize
  have hwords : ∀ i < 10, i ≠ 8 → fdt₂.word i = fdt.word i := by
    intro i hi hne
    rw [hsize.word hi (by omega), hkeeps.word hi (by omega)]
  have hkept : ∀ {q : ℕ} {xs : List Byte}, HasAt fdt.bytes q xs → 40 ≤ q →
      q + xs.length ≤ fdt.totalsize - (s.bytes.length + strs.length) ∨ fdt.totalsize - strs.length ≤ q →
        HasAt fdt₂.bytes q xs := fun hq hlo hout => hsize.hasAt (hkeeps.hasAt hq hout) (by omega)
  have htotal : fdt₂.totalsize = fdt.totalsize := hwords 1 (by decide) (by decide)
  have hlen : (s.bytes ++ strs).length = s.bytes.length + strs.length := List.length_append
  constructor
  case magic => exact (hwords 0 (by decide) (by decide)).trans h.magic
  case version => exact (hwords 5 (by decide) (by decide)).trans h.version
  case comp => exact (hwords 6 (by decide) (by decide)).trans h.comp
  case rsvmap => exact (hwords 4 (by decide) (by decide)).trans h.rsvmap
  case struct => exact (hwords 2 (by decide) (by decide)).trans h.struct
  case sizeStruct => exact (hwords 9 (by decide) (by decide)).trans h.sizeStruct
  case sizeStrings =>
    rw [Fdt.sizeDtStrings, ← hfdt₂, word_setWord fdt' (by decide) (by omega), hlen, Nat.add_comm]
  case room => rw [htotal, hlen]; exact hroom
  case memory =>
    rw [htotal, hsize.length, hkeeps.length]
    exact h.memory
  case small => exact htotal ▸ hsmall
  case reservesAt => exact hkept h.reservesAt (by decide) (by omega)
  case bodyAt => exact hkept h.bodyAt (by omega) (by omega)
  case strsAt =>
    rw [htotal, hlen]
    refine hasAt_append.mpr ⟨hsize.hasAt hplace (by omega), ?_⟩
    rw [show fdt.totalsize - (s.bytes.length + strs.length) + s.bytes.length = fdt.totalsize - strs.length by omega]
    exact hkept h.strsAt (by omega) (.inr le_rfl)
  case fits => exact fun e he => (h.fits e he).strings s.bytes

/-- A name that is not among the strings fits in front of them. -/
def NameFits (fdt : Fdt) (strs : List Byte) (s : CString) : Prop :=
  fdtFindString strs s = none → s.bytes.length + strs.length ≤ fdt.totalsize

/-- The search for a name, and what is done if there is none. -/
theorem fdtFindAddString_eq (h : Drafts fdt reserves es strs) (s : CString) :
    fdtFindAddString fdt s = match fdtFindString strs s with
      | some i => .ok ((i : ℤ) - (strs.length : ℕ), fdt)
      | none =>
        if u32 (fdt.totalsize + (-(strs.length : ℤ) - (s.bytes.length : ℕ))) <
            48 + reserves.length + (body draftOff es).length then .ok (0, fdt)
        else (do
          let fdt' ← storeBytes fdt (← place (fdt.totalsize + (-(strs.length : ℤ) - (s.bytes.length : ℕ)))) s.bytes
          pure (-(strs.length : ℤ) - (s.bytes.length : ℕ),
            fdt'.setWord 8 (u32 ((strs.length : ℤ) + (s.bytes.length : ℕ))))) := by
  have hroom := h.room
  have hsmall := h.small
  have hsize : int32 (fdt.sizeDtStrings : ℤ) = (strs.length : ℕ) := by
    rw [h.sizeStrings, int32_natCast (by omega)]
  have hstart : (fdt.totalsize : ℤ) - (strs.length : ℕ) = ((fdt.totalsize - strs.length : ℕ) : ℤ) := by omega
  have htop : int32 ((fdt.offDtStruct : ℤ) + fdt.sizeDtStruct) =
      ((48 + reserves.length + (body draftOff es).length : ℕ) : ℤ) := by
    rw [h.struct, h.sizeStruct, ← Int.natCast_add, int32_natCast (by omega)]
  have hword : u32 ((48 + reserves.length + (body draftOff es).length : ℕ) : ℤ) =
      48 + reserves.length + (body draftOff es).length := u32_natCast (by omega)
  rw [fdtFindAddString]
  simp only [hsize, hstart, htop, hword, place_natCast, ok_bind, Int.toNat_natCast,
    loadBytes_of_hasAt h.strsAt rfl]
  rfl

/-- A name is found among the strings, or it is added in front of them if there is room. -/
theorem fdtFindAddString_spec (h : Drafts fdt reserves es strs) {s : CString} (hs : NameFits fdt strs s) :
    ∃ r, fdtFindAddString fdt s = .ok r ∧ (r = (0, fdt) ∨ ∃ (k : ℕ) (strs' : List Byte), r.1 = -k ∧ 0 < k ∧
      k ≤ strs'.length ∧ HasAt strs' (strs'.length - k) s.bytes ∧ Drafts r.2 reserves es strs') := by
  have hroom := h.room
  have hsmall := h.small
  have hmemory := h.memory
  have hpos := CString.length_bytes s
  rw [fdtFindAddString_eq h]
  cases hfind : fdtFindString strs s with
  | some i =>
    have hname := fdtFindString_some hfind
    have hle := hname.le
    refine ⟨_, rfl, .inr ⟨strs.length - i, strs, ?_, by omega, by omega, ?_, h⟩⟩
    · dsimp only
      omega
    · rwa [Nat.sub_sub_self (by omega)]
  | none =>
    have hfits := hs hfind
    have hoffset : (fdt.totalsize : ℤ) + (-(strs.length : ℤ) - (s.bytes.length : ℕ)) =
        ((fdt.totalsize - (s.bytes.length + strs.length) : ℕ) : ℤ) := by omega
    dsimp only
    rw [hoffset, place_natCast, ok_bind, u32_natCast (by omega)]
    split
    · exact ⟨_, rfl, .inl rfl⟩
    · next hfits =>
      obtain ⟨fdt', hstore, hkeeps, hplace⟩ := storeBytes_spec fdt
        (fdt.totalsize - (s.bytes.length + strs.length)) s.bytes (by omega)
      have hend : fdt.totalsize - (s.bytes.length + strs.length) + s.bytes.length = fdt.totalsize - strs.length := by
        omega
      rw [hend] at hkeeps
      rw [hstore, ok_bind, ← Int.natCast_add, u32_natCast (by omega)]
      refine ⟨_, rfl, .inr ⟨s.bytes.length + strs.length, s.bytes ++ strs, ?_, by omega, ?_, ?_, ?_⟩⟩
      · dsimp only
        omega
      · rw [List.length_append]
      · rw [List.length_append, Nat.sub_self]
        exact (hasAt_zero_self _).left
      · exact h.addString (by omega) hkeeps hplace

/-- The words and the value of a property are stored where space has been grabbed. -/
theorem storeProp_spec (fdt : Fdt) (p : ℕ) (nameoff : ℤ) (val : List Byte)
    (hle : p + (12 + align val.length 4) ≤ fdt.bytes.length) :
    ∃ fdt' pad, (do
        let fdt ← storeBytes fdt (← place p) (toBytes 4 fdtProp)
        let fdt ← storeBytes fdt (← place (p + 8)) (toBytes 4 (u32 nameoff))
        let fdt ← storeBytes fdt (← place (p + 4)) (toBytes 4 val.length)
        let fdt ← storeBytes fdt (← place (p + 12)) val
        pure ((0 : ℤ), fdt)) = Except.ok (0, fdt') ∧ Keeps fdt fdt' p (p + (12 + align val.length 4)) ∧
      val.length + pad.length = align val.length 4 ∧ HasAt fdt'.bytes p (toBytes 4 fdtProp ++
        (toBytes 4 val.length ++ (toBytes 4 (u32 nameoff) ++ (val ++ pad)))) := by
  have hlo := le_align (a := 4) (by decide) val.length
  have hword : ∀ v, (toBytes 4 v).length = 4 := length_toBytes 4
  have h₁ := hword fdtProp
  have h₂ := hword (u32 nameoff)
  have h₃ := hword val.length
  obtain ⟨fdt₁, hstore₁, hkeeps₁, hplace₁⟩ := storeBytes_spec fdt p (toBytes 4 fdtProp) (by omega)
  have hlen₁ := hkeeps₁.length
  obtain ⟨fdt₂, hstore₂, hkeeps₂, hplace₂⟩ := storeBytes_spec fdt₁ (p + 8) (toBytes 4 (u32 nameoff)) (by omega)
  have hlen₂ := hkeeps₂.length
  obtain ⟨fdt₃, hstore₃, hkeeps₃, hplace₃⟩ := storeBytes_spec fdt₂ (p + 4) (toBytes 4 val.length) (by omega)
  have hlen₃ := hkeeps₃.length
  obtain ⟨fdt₄, hstore₄, hkeeps₄, hplace₄⟩ := storeBytes_spec fdt₃ (p + 12) val (by omega)
  have hlen₄ := hkeeps₄.length
  have hbehind : p + 12 + val.length + (align val.length 4 - val.length) ≤ fdt₄.bytes.length := by omega
  refine ⟨fdt₄, slice fdt₄.bytes (p + 12 + val.length) (align val.length 4 - val.length), ?_, ?_, ?_, ?_⟩
  · have h4 : ((p : ℕ) : ℤ) + 4 = ((p + 4 : ℕ) : ℤ) := rfl
    have h8 : ((p : ℕ) : ℤ) + 8 = ((p + 8 : ℕ) : ℤ) := rfl
    have h12 : ((p : ℕ) : ℤ) + 12 = ((p + 12 : ℕ) : ℤ) := rfl
    rw [h4, h8, h12]
    simp only [place_natCast, ok_bind, hstore₁, hstore₂, hstore₃, hstore₄]
    rfl
  · exact (((hkeeps₁.mono le_rfl (by omega)).trans (hkeeps₂.mono (by omega) (by omega))).trans
      (hkeeps₃.mono (by omega) (by omega))).trans (hkeeps₄.mono (by omega) (by omega))
  · rw [length_slice hbehind]
    omega
  · have htag := hkeeps₄.hasAt (hkeeps₃.hasAt (hkeeps₂.hasAt hplace₁ (by omega)) (by omega)) (by omega)
    have hoff := hkeeps₄.hasAt (hkeeps₃.hasAt hplace₂ (by omega)) (by omega)
    have hlen := hkeeps₄.hasAt hplace₃ (by omega)
    refine hasAt_append.mpr ⟨htag, hasAt_append.mpr ⟨?_, hasAt_append.mpr ⟨?_, hasAt_append.mpr ⟨?_, ?_⟩⟩⟩⟩
    all_goals simp only [length_toBytes]
    · exact hlen
    · exact hoff
    · exact hplace₄
    · exact hasAt_slice hbehind

theorem fdtProperty_spec (h : Drafts fdt reserves es strs) {name : CString} (hname : NameFits fdt strs name)
    {val : List Byte} (hval : val.length < 2 ^ 31) :
    ∃ r, fdtProperty fdt name val = .ok r ∧ Adds reserves es (.prop name val) r := by
  have hhi := align_lt (a := 4) (by decide) val.length
  obtain ⟨⟨nameoff, fdt₀⟩, hfind, hnone | ⟨k, strs', hk, hpos, hle, hname, hadded⟩⟩ := fdtFindAddString_spec h hname
  · obtain ⟨rfl, rfl⟩ := Prod.mk.inj hnone
    rw [fdtProperty, if_neg (not_not.mpr h.check), hfind, ok_bind]
    exact ⟨_, rfl, strs, .inr ⟨rfl, h⟩⟩
  · have hnameoff : nameoff = -(k : ℤ) := hk
    have hne : ¬nameoff = 0 := by omega
    rw [fdtProperty, if_neg (not_not.mpr h.check), hfind, ok_bind]
    dsimp only
    rw [if_neg hne]
    have h : Drafts fdt₀ reserves es strs' := hadded
    obtain hnone | ⟨p, fdt₁, hsome, hroom, hadd⟩ := h.grab (12 + align val.length 4) (by omega)
    · rw [hnone]
      exact ⟨_, rfl, strs', .inr ⟨rfl, h⟩⟩
    · obtain ⟨fdt', pad, hstore, hkeeps, hpad, hplace⟩ := storeProp_spec fdt₁ p nameoff val hroom
      rw [hsome]
      dsimp only
      rw [hnameoff, u32_neg hpos (by have := h.small; have := h.room; omega)] at hplace
      refine ⟨_, hstore, strs', .inl ⟨rfl, .prop name k val pad, rfl, hadd hkeeps hplace ?_ ⟨hpad, hpos, hle, hname⟩⟩⟩
      simp only [Entry.bytes, List.length_append, length_toBytes]
      omega

/-- The check for room wraps around with a name that is longer than all that is in front of the strings,
and then the name is written in front of the buffer. -/
theorem fdtProperty_of_overrun (h : Drafts fdt reserves es strs) {name : CString} (val : List Byte)
    (hname : name.bytes.length < 2 ^ 31) (hfind : fdtFindString strs name = none)
    (hlt : fdt.totalsize < name.bytes.length + strs.length) : fdtProperty fdt name val = .error .outside := by
  have hroom := h.room
  have hsmall := h.small
  have hneg : (fdt.totalsize : ℤ) + (-(strs.length : ℤ) - (name.bytes.length : ℕ)) < 0 := by omega
  have hwrap : ¬u32 (fdt.totalsize + (-(strs.length : ℤ) - (name.bytes.length : ℕ))) <
      48 + reserves.length + (body draftOff es).length := not_u32_lt (by omega) hneg (by omega)
  have hplace : place (fdt.totalsize + (-(strs.length : ℤ) - (name.bytes.length : ℕ))) = .error .outside :=
    if_pos hneg
  have hadd : fdtFindAddString fdt name = .error .outside := by
    rw [fdtFindAddString_eq h, hfind]
    refine (if_neg hwrap).trans ?_
    rw [hplace]
    rfl
  rw [fdtProperty, if_neg (not_not.mpr h.check), hadd]
  rfl

/-- It is the only way out of the memory. -/
theorem fdtProperty_outside (h : Drafts fdt reserves es strs) {name : CString} {val : List Byte}
    (hname : name.bytes.length < 2 ^ 31) (hval : val.length < 2 ^ 31) :
    fdtProperty fdt name val = .error .outside ↔
      fdtFindString strs name = none ∧ fdt.totalsize < name.bytes.length + strs.length := by
  constructor
  · intro hout
    by_contra hfits
    have hfits : NameFits fdt strs name := fun hfind => Nat.not_lt.mp fun hlt => hfits ⟨hfind, hlt⟩
    obtain ⟨r, hrun, -⟩ := fdtProperty_spec h hfits hval
    rw [hout] at hrun
    cases hrun
  · exact fun ⟨hfind, hlt⟩ => fdtProperty_of_overrun h val hname hfind hlt

/-- A call leaves the memory with a long name only, as the table of strings is behind all else. -/
theorem Call.run_spec (h : Drafts fdt reserves es strs) {c : Call} (hc : c.Small) :
    (∃ r, c.run fdt = .ok r ∧ Adds reserves es c.tag r) ∨
      c.run fdt = .error .outside ∧ c.Long (48 + reserves.length) := by
  cases c with
  | beginNode name =>
    rw [Call.Small] at hc
    rw [Call.run, Call.tag]
    exact .inl (fdtBeginNodeCall_spec h hc)
  | property name val =>
    rw [Call.Small] at hc
    rw [Call.run, Call.tag, Call.Long]
    by_cases hfits : NameFits fdt strs name
    · exact .inl (fdtProperty_spec h hfits hc.2)
    · obtain ⟨hfind, hlt⟩ := Classical.not_imp.mp hfits
      have hroom := h.room
      exact .inr ⟨fdtProperty_of_overrun h val hc.1 hfind (Nat.not_le.mp hlt), by omega⟩
  | endNode =>
    rw [Call.run, Call.tag]
    exact .inl (fdtEndNodeCall_spec h)

/-- Calls in a row, with those of them that succeed. -/
def runCalls : Fdt → List Call → Access (List Call × Fdt)
  | fdt, [] => pure ([], fdt)
  | fdt, c :: cs => do
    let (r, fdt) ← c.run fdt
    let (done, fdt) ← runCalls fdt cs
    pure (if r = 0 then c :: done else done, fdt)

theorem runCalls_cons {c : Call} {r : ℤ} {fdt₁ : Fdt} (hrun : c.run fdt = .ok (r, fdt₁)) (cs : List Call) :
    runCalls fdt (c :: cs) =
      (runCalls fdt₁ cs).map fun run => (if r = 0 then c :: run.1 else run.1, run.2) := by
  rw [runCalls, hrun, ok_bind]
  dsimp only
  cases runCalls fdt₁ cs <;> rfl

/-- After any calls the blob has the tags of those that succeeded, unless a long name led out of it. -/
theorem runCalls_spec (h : Drafts fdt reserves es strs) (calls : List Call) (hcalls : ∀ c ∈ calls, c.Small) :
    (∃ done fdt' es' strs', runCalls fdt calls = .ok (done, fdt') ∧ Drafts fdt' reserves (es ++ es') strs' ∧
      es'.map Entry.tag = done.map Call.tag) ∨
      runCalls fdt calls = .error .outside ∧ ∃ c ∈ calls, c.Long (48 + reserves.length) := by
  induction calls generalizing fdt es strs with
  | nil => exact .inl ⟨[], fdt, [], strs, rfl, by rwa [List.append_nil], rfl⟩
  | cons c cs ih =>
    have htail := fun {fdt es strs} (h : Drafts fdt reserves es strs) =>
      ih h fun c hc => hcalls c (List.mem_cons_of_mem _ hc)
    obtain ⟨⟨r, fdt₁⟩, hrun, strs₁, hadds⟩ | ⟨hrun, hlong⟩ := Call.run_spec h (hcalls c List.mem_cons_self)
    · have hcons := runCalls_cons hrun cs
      have hfault : (runCalls fdt₁ cs = .error .outside ∧ ∃ d ∈ cs, d.Long (48 + reserves.length)) →
          runCalls fdt (c :: cs) = .error .outside ∧ ∃ d ∈ c :: cs, d.Long (48 + reserves.length) := by
        rintro ⟨hrest, d, hd, hlong⟩
        rw [hrest] at hcons
        exact ⟨hcons, d, List.mem_cons_of_mem c hd, hlong⟩
      obtain ⟨rfl, e, htag, hadded⟩ | ⟨rfl, hkept⟩ := hadds
      · obtain ⟨done, fdt₂, es₂, strs₂, hrest, hdraft, hmap⟩ | hout := htail hadded
        · rw [hrest] at hcons
          refine .inl ⟨c :: done, fdt₂, e :: es₂, strs₂, hcons, by rwa [List.append_assoc] at hdraft, ?_⟩
          rw [List.map_cons, List.map_cons, htag, hmap]
        · exact .inr (hfault hout)
      · obtain ⟨done, fdt₂, es₂, strs₂, hrest, hdraft, hmap⟩ | hout := htail hkept
        · rw [hrest] at hcons
          exact .inl ⟨done, fdt₂, es₂, strs₂, hcons, hdraft, hmap⟩
        · exact .inr (hfault hout)
    · refine .inr ⟨?_, c, List.mem_cons_self, hlong⟩
      rw [runCalls, hrun]
      rfl

end Calls

section Finishing

variable {fdt : Fdt} {n off : ℕ} {strs : List Byte} {w : ℕ → ℕ}

/-- The offset of an entry with its name among the strings. -/
def finalOff (strs : List Byte) (k : ℕ) : ℕ := strs.length - k

theorem align_add (hdvd : 4 ∣ off) (x : ℕ) : align (off + x) 4 = off + align x 4 := by
  rw [align, align]
  omega

/-- The tag of an entry is found, and the next entry behind it. -/
theorem fdtNextTag_of_entry (h : Extent fdt n) {e : Entry} (hfits : e.Fits strs) (hdvd : 4 ∣ off)
    (hplace : HasAt fdt.bytes (fdt.offDtStruct + off) (e.bytes w)) (hle : off + (e.bytes w).length ≤ n) :
    fdtNextTag fdt off = .ok (e.tag.code, ((off + (e.bytes w).length : ℕ) : ℤ)) := by
  cases e with
  | beginNode name pad =>
    rw [Entry.Fits] at hfits
    have hlen : off + ((Entry.beginNode name pad).bytes w).length = align (off + 4 + name.bytes.length) 4 := by
      rw [align_add (Nat.dvd_add hdvd ⟨1, rfl⟩), Entry.bytes, List.length_append, List.length_append, length_toBytes]
      omega
    rw [Entry.bytes, ← List.append_assoc] at hplace
    rw [hlen] at hle ⊢
    exact fdtNextTag_of_beginNode h hplace.left hle
  | prop name k val pad =>
    obtain ⟨hpad, -⟩ := hfits
    have hlen : off + ((Entry.prop name k val pad).bytes w).length = align (off + 12 + val.length) 4 := by
      rw [align_add (Nat.dvd_add hdvd ⟨3, rfl⟩)]
      simp only [Entry.bytes, List.length_append, length_toBytes]
      omega
    rw [Entry.bytes, ← List.append_assoc] at hplace
    rw [hlen] at hle ⊢
    exact fdtNextTag_of_prop h hplace.left hle
  | endNode =>
    rw [Entry.bytes, length_toBytes] at hle ⊢
    exact fdtNextTag_of_end h (.inl rfl) hdvd hplace hle
  | fin =>
    rw [Entry.bytes, length_toBytes] at hle ⊢
    exact fdtNextTag_of_end h (.inr rfl) hdvd hplace hle

/-- Entries with their names in place are tags in a row. -/
theorem chain_of_body {es : List Entry} (hfits : ∀ e ∈ es, e.Fits strs) (hdvd : 4 ∣ off)
    (hplace : HasAt fdt.bytes (fdt.offDtStruct + off) (body (finalOff strs) es))
    (hstrs : HasAt fdt.bytes fdt.offDtStrings strs) (hsmall : strs.length < 2 ^ 31)
    (hle : off + (body (finalOff strs) es).length ≤ n) :
    Chain fdt n off (es.map Entry.tag) (off + (body (finalOff strs) es).length) := by
  induction es generalizing off with
  | nil => exact .nil off
  | cons e es ih =>
    have he := hfits e List.mem_cons_self
    rw [body, List.flatMap_cons] at hplace hle ⊢
    rw [List.length_append] at hle ⊢
    have hright := hplace.right
    rw [Nat.add_assoc] at hright
    have hrest := ih (fun e he => hfits e (List.mem_cons_of_mem _ he))
      (Nat.dvd_add hdvd (he.dvd (finalOff strs))) hright (by rw [body]; omega)
    rw [body, Nat.add_assoc] at hrest
    refine .cons ?_ hrest
    have htag := hplace.left
    cases e with
    | beginNode name pad =>
      rw [Entry.Fits] at he
      rw [Entry.bytes, ← List.append_assoc] at htag
      refine .beginNode hdvd htag.left ?_ (by omega)
      rw [align_add (Nat.dvd_add hdvd ⟨1, rfl⟩), Entry.bytes, List.length_append, List.length_append, length_toBytes]
      omega
    | prop name k val pad =>
      obtain ⟨hpad, hpos, hk, hname⟩ := he
      rw [Entry.bytes, ← List.append_assoc, ← List.append_assoc, ← List.append_assoc] at htag
      have hhead := htag.left
      rw [List.append_assoc, List.append_assoc] at hhead
      refine .prop hdvd hhead (hstrs.trans hname) (by rw [finalOff]; omega) ?_ (by omega)
      rw [align_add (Nat.dvd_add hdvd ⟨3, rfl⟩)]
      simp only [Entry.bytes, List.length_append, length_toBytes]
      omega
    | endNode =>
      rw [Entry.bytes, length_toBytes] at hle ⊢
      exact .endNode hdvd htag (by omega)
    | fin =>
      rw [Entry.bytes, length_toBytes] at hle ⊢
      exact .fin hdvd htag (by omega)

/-- The words of a store above the header stay. -/
theorem Keeps.extent {fdt' : Fdt} {lo hi : ℕ} (h : Extent fdt n) (hkeeps : Keeps fdt fdt' lo hi) (hlo : 40 ≤ lo) :
    Extent fdt' n ∧ ∀ i < 10, fdt'.word i = fdt.word i := by
  have hwords : ∀ i < 10, fdt'.word i = fdt.word i := fun i hi => hkeeps.word hi (by omega)
  have htotal : fdt'.totalsize = fdt.totalsize := hwords 1 (by decide)
  have hstruct : fdt'.offDtStruct = fdt.offDtStruct := hwords 2 (by decide)
  have hversion : fdt'.version = fdt.version := hwords 5 (by decide)
  have hsize : fdt'.sizeDtStruct = fdt.sizeDtStruct := hwords 9 (by decide)
  refine ⟨⟨?_, ?_, ?_, ?_⟩, hwords⟩
  · rw [htotal, hstruct]
    exact h.struct
  · rw [hversion, hsize]
    exact h.size
  · rw [htotal, hkeeps.length]
    exact h.memory
  · rw [htotal]
    exact h.small

theorem u32_int32_draftOff {k : ℕ} (hpos : 0 < k) (hk : k ≤ strs.length) (hsmall : strs.length < 2 ^ 31) :
    u32 (int32 (draftOff k : ℕ) + (strs.length : ℕ)) = finalOff strs k := by
  have hint : int32 ((draftOff k : ℕ) : ℤ) = -(k : ℤ) := by
    rw [int32, draftOff, Int.bmod_def]
    split <;> omega
  rw [hint, finalOff, u32]
  omega

theorem Entry.code_ne_end {e : Entry} (h : e ≠ .fin) : e.tag.code ≠ fdtEnd := by
  cases e with
  | fin => exact absurd rfl h
  | beginNode => exact (by decide : fdtBeginNode ≠ fdtEnd)
  | prop => exact (by decide : fdtProp ≠ fdtEnd)
  | endNode => exact (by decide : fdtEndNode ≠ fdtEnd)

theorem Keeps.refl (fdt : Fdt) (lo hi : ℕ) : Keeps fdt fdt lo hi := ⟨rfl, fun hq _ => hq⟩

theorem body_cons (w : ℕ → ℕ) (e : Entry) (es : List Entry) : body w (e :: es) = e.bytes w ++ body w es :=
  List.flatMap_cons

/-- One round of the loop: an entry gets its place of the name, if it has one. -/
theorem finishLoop_entry (h : Extent fdt n) (hstrings : fdt.sizeDtStrings = strs.length)
    (hsmall : strs.length < 2 ^ 31) {e : Entry} (hfits : e.Fits strs) (hne : e ≠ .fin) (hdvd : 4 ∣ off)
    (hplace : HasAt fdt.bytes (fdt.offDtStruct + off) (e.bytes draftOff))
    (hle : off + (e.bytes draftOff).length ≤ n) (fuel : ℕ) :
    ∃ fdt₁, finishLoop (fuel + 1) fdt off = finishLoop fuel fdt₁ ((off + (e.bytes draftOff).length : ℕ) : ℤ) ∧
      Keeps fdt fdt₁ (fdt.offDtStruct + off) (fdt.offDtStruct + off + (e.bytes draftOff).length) ∧
        HasAt fdt₁.bytes (fdt.offDtStruct + off) (e.bytes (finalOff strs)) := by
  have hnext := fdtNextTag_of_entry h hfits hdvd hplace hle
  have hend := Entry.code_ne_end hne
  have hplain : e.tag.code ≠ fdtProp → finishLoop (fuel + 1) fdt off =
      finishLoop fuel fdt ((off + (e.bytes draftOff).length : ℕ) : ℤ) := by
    intro hcode
    rw [finishLoop, hnext, ok_bind]
    dsimp only
    rw [if_neg hend, if_neg hcode]
  cases e with
  | prop name k val pad =>
    obtain ⟨hpad, hpos, hk, hname⟩ := hfits
    have hlen : ((Entry.prop name k val pad).bytes draftOff).length = 12 + (val.length + pad.length) := by
      simp only [Entry.bytes, List.length_append, length_toBytes]
      omega
    have hmemory := hplace.le
    have hlenAt := hplace.right.left
    have hword := hplace.right.right.left
    have hrest := hplace.right.right.right
    simp only [length_toBytes] at hlenAt hword hrest
    have hload := load32_of_hasAt (by rw [draftOff]; omega) hword
    have hbytes : (toBytes 4 (finalOff strs k)).length = 4 := length_toBytes 4 _
    obtain ⟨fdt₁, hstore, hkeeps, hnew⟩ := storeBytes_spec fdt (fdt.offDtStruct + off + 4 + 4)
      (toBytes 4 (finalOff strs k)) (by omega)
    refine ⟨fdt₁, ?_, hkeeps.mono (by omega) (by omega), ?_⟩
    · have hp : (fdt.offDtStruct : ℤ) + (off : ℕ) = ((fdt.offDtStruct + off : ℕ) : ℤ) := rfl
      have hp8 : fdt.offDtStruct + off + 8 = fdt.offDtStruct + off + 4 + 4 := rfl
      rw [finishLoop, hnext, ok_bind]
      dsimp only
      rw [if_neg hend, if_pos (show (Entry.prop name k val pad).tag.code = fdtProp from rfl), hp, place_natCast,
        ok_bind, hp8, hload, ok_bind, hstrings, u32_int32_draftOff hpos hk hsmall, hstore, ok_bind]
    · have htag := hkeeps.hasAt hplace.left (by rw [length_toBytes]; omega)
      have hlenAt := hkeeps.hasAt hlenAt (by rw [length_toBytes]; omega)
      have hrest := hkeeps.hasAt hrest (by omega)
      refine hasAt_append.mpr ⟨htag, hasAt_append.mpr ⟨?_, hasAt_append.mpr ⟨?_, ?_⟩⟩⟩
      all_goals simp only [length_toBytes]
      · exact hlenAt
      · exact hnew
      · exact hrest
  | beginNode name pad => exact ⟨fdt, hplain (by exact (by decide : fdtBeginNode ≠ fdtProp)), .refl _ _ _, hplace⟩
  | endNode => exact ⟨fdt, hplain (by exact (by decide : fdtEndNode ≠ fdtProp)), .refl _ _ _, hplace⟩
  | fin => exact absurd rfl hne

/-- The loop gives each property the place of its name and changes nothing else. -/
theorem finishLoop_spec (off : ℕ) (h : Extent fdt n) (hstruct : 40 ≤ fdt.offDtStruct)
    (hstrings : fdt.sizeDtStrings = strs.length) (hsmall : strs.length < 2 ^ 31) {es : List Entry}
    (hfits : ∀ e ∈ es, e.Fits strs) (hbody : ∀ e ∈ es, e ≠ .fin) (hdvd : 4 ∣ off)
    (hplace : HasAt fdt.bytes (fdt.offDtStruct + off) (body draftOff (es ++ [.fin])))
    (hle : off + (body draftOff (es ++ [.fin])).length ≤ n) {fuel : ℕ} (hfuel : n < off + 4 * fuel) :
    ∃ fdt', finishLoop fuel fdt off = .ok (((off + (body draftOff (es ++ [.fin])).length : ℕ) : ℤ), fdt') ∧
      Keeps fdt fdt' (fdt.offDtStruct + off) (fdt.offDtStruct + off + (body draftOff (es ++ [.fin])).length) ∧
        HasAt fdt'.bytes (fdt.offDtStruct + off) (body (finalOff strs) (es ++ [.fin])) := by
  obtain ⟨fuel, rfl⟩ := Nat.exists_eq_succ_of_ne_zero (n := fuel) (by omega)
  induction es generalizing fdt off fuel with
  | nil =>
    have hfin : body draftOff ([] ++ [.fin]) = Entry.fin.bytes draftOff := by
      rw [List.nil_append, body, List.flatMap_singleton]
    have hfits : Entry.fin.Fits strs := trivial
    rw [hfin] at hplace hle ⊢
    refine ⟨fdt, ?_, .refl _ _ _, hplace⟩
    rw [finishLoop, fdtNextTag_of_entry h hfits hdvd hplace hle, ok_bind]
    exact if_pos rfl
  | cons e es ih =>
    have he := hfits e List.mem_cons_self
    rw [List.cons_append, body_cons] at hplace hle ⊢
    rw [List.length_append] at hle ⊢
    obtain ⟨fdt₁, hstep, hkeeps, hnew⟩ := finishLoop_entry h hstrings hsmall he (hbody e List.mem_cons_self)
      hdvd hplace.left (by omega) fuel
    obtain ⟨hextent, hwords⟩ := hkeeps.extent h (by omega)
    have hstruct₁ : fdt₁.offDtStruct = fdt.offDtStruct := hwords 2 (by decide)
    have hstrings₁ : fdt₁.sizeDtStrings = fdt.sizeDtStrings := hwords 8 (by decide)
    have hright := hkeeps.hasAt hplace.right (.inr le_rfl)
    rw [Nat.add_assoc, ← hstruct₁] at hright
    have hdvd₁ := Nat.dvd_add hdvd (he.dvd draftOff)
    have hlen : 4 ≤ (e.bytes draftOff).length := by
      cases e <;> simp only [Entry.bytes, List.length_append, length_toBytes] <;> omega
    have hlast : 4 ≤ (body draftOff (es ++ [.fin])).length := by
      rw [body_append, List.length_append]
      exact Nat.le_add_left 4 _
    obtain ⟨fuel, rfl⟩ := Nat.exists_eq_succ_of_ne_zero (n := fuel) (by omega)
    obtain ⟨fdt', hrest, hkeeps', hnew'⟩ := ih _ hextent (hstruct₁ ▸ hstruct) (hstrings₁.trans hstrings)
      (fun e he => hfits e (List.mem_cons_of_mem _ he)) (fun e he => hbody e (List.mem_cons_of_mem _ he)) hdvd₁
      hright (by omega) fuel (by omega)
    rw [hstruct₁] at hkeeps' hnew'
    refine ⟨fdt', ?_, ?_, ?_⟩
    · rw [hstep, hrest, Nat.add_assoc]
    · exact (hkeeps.mono le_rfl (by omega)).trans (hkeeps'.mono (by omega) (by omega))
    · rw [body_cons]
      refine hasAt_append.mpr ⟨hkeeps'.hasAt hnew (.inl ?_), ?_⟩
      · rw [Entry.length_bytes (finalOff strs) draftOff]
        omega
      · rw [Entry.length_bytes (finalOff strs) draftOff, Nat.add_assoc]
        exact hnew'

structure Finished (fdt : Fdt) (reserves : List Byte) (tags : List Tag) : Prop where
  header : fdtCheckHeader fdt = 0
  tags : ∃ n, Extent fdt n ∧ Chain fdt n 0 (tags ++ [.fin]) n
  reserves : HasAt fdt.bytes fdt.offMemRsvmap reserves

/-- The strings are moved to the end of the structure block. -/
theorem Drafts.moveStrings {reserves : List Byte} {es : List Entry} (h : Drafts fdt reserves es strs) {fdt' : Fdt}
    (hkeeps : Keeps fdt fdt' (48 + reserves.length + (body draftOff es).length)
      (48 + reserves.length + (body draftOff es).length + strs.length)) :
    let fdt₂ := fdt'.setWord 3 (48 + reserves.length + (body draftOff es).length)
    (∀ i < 10, i ≠ 3 → fdt₂.word i = fdt.word i) ∧
      fdt₂.word 3 = 48 + reserves.length + (body draftOff es).length ∧
        Extent fdt₂ (body draftOff es).length ∧ HasAt fdt₂.bytes 48 reserves ∧
          HasAt fdt₂.bytes (48 + reserves.length) (body draftOff es) ∧ Keeps fdt' fdt₂ 0 40 := by
  intro fdt₂
  have hroom := h.room
  have hsmall := h.small
  have hset := keeps_setWord fdt' (i := 3) (by decide) (48 + reserves.length + (body draftOff es).length)
  have hwords : ∀ i < 10, i ≠ 3 → fdt₂.word i = fdt.word i := by
    intro i hi hne
    rw [word_setWord_of_ne fdt' (by decide) hi hne, hkeeps.word hi (by omega)]
  have htotal : fdt₂.totalsize = fdt.totalsize := hwords 1 (by decide) (by decide)
  have hstruct : fdt₂.offDtStruct = fdt.offDtStruct := hwords 2 (by decide) (by decide)
  have hsize : fdt₂.sizeDtStruct = fdt.sizeDtStruct := hwords 9 (by decide) (by decide)
  refine ⟨hwords, word_setWord fdt' (by decide) (by omega), ⟨?_, ?_, ?_, ?_⟩, ?_, ?_, hset.mono (by omega) (by omega)⟩
  · rw [htotal, hstruct, h.struct]
    omega
  · rw [hsize, h.sizeStruct]
    exact fun _ => le_rfl
  · rw [htotal, hset.length, hkeeps.length]
    exact h.memory
  · rw [htotal]
    exact hsmall
  · exact hset.hasAt (hkeeps.hasAt h.reservesAt (by omega)) (by omega)
  · exact hset.hasAt (hkeeps.hasAt h.bodyAt (by omega)) (by omega)

/-- With its size and its magic number it is a blob. -/
theorem finished_setWord {reserves : List Byte} {es : List Entry} {s b : ℕ} (hs : 40 ≤ s)
    (hversion : fdt.version = lastSupportedVersion) (hcomp : fdt.lastCompVersion = firstSupportedVersion)
    (hrsvmap : fdt.offMemRsvmap = 48) (hstruct : fdt.offDtStruct = s) (hstrings : fdt.offDtStrings = s + b)
    (hsize : fdt.sizeDtStruct = b) (hb : (body (finalOff strs) (es ++ [.fin])).length = b)
    (hmemory : s + b + strs.length ≤ fdt.bytes.length) (hsmall : s + b + strs.length < 2 ^ 31)
    (hreserves : HasAt fdt.bytes 48 reserves)
    (hbody : HasAt fdt.bytes s (body (finalOff strs) (es ++ [.fin]))) (hstrs : HasAt fdt.bytes (s + b) strs)
    (hfits : ∀ e ∈ es ++ [.fin], e.Fits strs) :
    Finished ((fdt.setWord 1 (s + b + strs.length)).setWord 0 fdtMagic) reserves (es.map Entry.tag) := by
  have hset₁ := keeps_setWord fdt (i := 1) (by decide) (s + b + strs.length)
  have hset₂ := keeps_setWord (fdt.setWord 1 (s + b + strs.length)) (i := 0) (by decide) fdtMagic
  have hkeeps := (hset₁.mono (Nat.zero_le _) (by decide)).trans (hset₂.mono (Nat.zero_le _) (by decide : _ ≤ 8))
  have hmagic : ((fdt.setWord 1 (s + b + strs.length)).setWord 0 fdtMagic).magic = fdtMagic :=
    word_setWord _ (by decide) (by decide)
  have htotal : ((fdt.setWord 1 (s + b + strs.length)).setWord 0 fdtMagic).totalsize = s + b + strs.length :=
    (word_setWord_of_ne _ (by decide) (by decide) (by decide) _).trans (word_setWord _ (by decide) (by omega))
  generalize (fdt.setWord 1 (s + b + strs.length)).setWord 0 fdtMagic = fdt' at *
  have hwords : ∀ i < 10, 2 ≤ i → fdt'.word i = fdt.word i := fun i hi hlo => hkeeps.word hi (.inr (by omega))
  have hstruct' : fdt'.offDtStruct = s := (hwords 2 (by decide) (by decide)).trans hstruct
  have hstrings' : fdt'.offDtStrings = s + b := (hwords 3 (by decide) (by decide)).trans hstrings
  have hrsvmap' : fdt'.offMemRsvmap = 48 := (hwords 4 (by decide) (by decide)).trans hrsvmap
  have hversion' : fdt'.version = lastSupportedVersion := (hwords 5 (by decide) (by decide)).trans hversion
  have hcomp' : fdt'.lastCompVersion = firstSupportedVersion := (hwords 6 (by decide) (by decide)).trans hcomp
  have hsize' : fdt'.sizeDtStruct = b := (hwords 9 (by decide) (by decide)).trans hsize
  have hextent : Extent fdt' b := by
    refine ⟨by omega, fun _ => hsize'.ge, ?_, by omega⟩
    rw [htotal, hkeeps.length]
    exact hmemory
  refine ⟨?_, ⟨b, hextent, ?_⟩, ?_⟩
  · rw [fdtCheckHeader, if_pos hmagic, hversion', hcomp', if_neg (by decide), if_neg (by decide)]
  · have hplace := hkeeps.hasAt hbody (.inr (by omega))
    rw [← hstruct'] at hplace
    have hnames := hkeeps.hasAt hstrs (.inr (by omega))
    rw [← hstrings'] at hnames
    have hchain := chain_of_body hfits (Nat.dvd_zero 4) hplace hnames (by omega) (by omega : _ ≤ b)
    rwa [List.map_append, hb, Nat.zero_add] at hchain
  · rw [hrsvmap']
    exact hkeeps.hasAt hreserves (.inr (by decide))

/-- `fdt_finish` makes a blob of the draft, or has no space for the last tag. -/
theorem fdtFinish_spec {reserves : List Byte} {es : List Entry} (h : Drafts fdt reserves es strs)
    (hbody : ∀ e ∈ es, e ≠ .fin) : ∃ r, fdtFinish fdt = .ok r ∧
      (r.1 = -errNospace ∨ r.1 = 0 ∧ Finished r.2 reserves (es.map Entry.tag)) := by
  rw [fdtFinish, if_neg (not_not.mpr h.check)]
  obtain hnone | ⟨p, fdt₁, hsome, hle, hadd⟩ := h.grab 4 (by decide)
  · rw [hnone]
    exact ⟨_, rfl, .inl rfl⟩
  · obtain ⟨fdt₂, hstore, hkeeps, hplace⟩ := storeBytes_spec fdt₁ p (toBytes 4 fdtEnd) hle
    have h₂ : Drafts fdt₂ reserves (es ++ [.fin]) strs := hadd hkeeps hplace (length_toBytes 4 _) trivial
    have hroom := h₂.room
    have hsmall := h₂.small
    have hmemory := h₂.memory
    have hold : int32 ((fdt₂.totalsize : ℤ) - fdt₂.sizeDtStrings) = ((fdt₂.totalsize - strs.length : ℕ) : ℤ) := by
      rw [h₂.sizeStrings, ← Int.ofNat_sub (by omega), int32_natCast (by omega)]
    have hnew : int32 ((fdt₂.offDtStruct : ℤ) + fdt₂.sizeDtStruct) =
        ((48 + reserves.length + (body draftOff (es ++ [.fin])).length : ℕ) : ℤ) := by
      rw [h₂.struct, h₂.sizeStruct, ← Int.natCast_add, int32_natCast (by omega)]
    obtain ⟨fdt₃, hmove, hkeeps₃, hstrs⟩ := storeBytes_spec fdt₂
      (48 + reserves.length + (body draftOff (es ++ [.fin])).length) strs (by omega)
    obtain ⟨hwords, hoffset, hextent, hreserves, hbodyAt, hset⟩ := h₂.moveStrings hkeeps₃
    have hfour : u32 ((48 + reserves.length + (body draftOff (es ++ [.fin])).length : ℕ) : ℤ) =
        48 + reserves.length + (body draftOff (es ++ [.fin])).length := u32_natCast (by omega)
    have hstrs := hset.hasAt hstrs (.inr (by omega))
    rw [hsome]
    dsimp only
    rw [place_natCast, ok_bind, hstore, ok_bind, hold, hnew, place_natCast, ok_bind,
      loadBytes_of_hasAt h₂.strsAt h₂.sizeStrings.symm, ok_bind, place_natCast, ok_bind, hmove, ok_bind, hfour]
    generalize fdt₃.setWord 3 _ = fdt₄ at *
    have hstruct : fdt₄.offDtStruct = 48 + reserves.length := (hwords 2 (by decide) (by decide)).trans h₂.struct
    have hsizeStrings : fdt₄.sizeDtStrings = strs.length :=
      (hwords 8 (by decide) (by decide)).trans h₂.sizeStrings
    have hfuel := enough_fuel hextent 0
    obtain ⟨fdt₅, hloop, hkeeps₅, hfinal⟩ := finishLoop_spec 0 hextent (by omega) hsizeStrings (by omega)
      h.fits hbody (Nat.dvd_zero 4) (by rw [hstruct]; exact hbodyAt) (by omega) hfuel
    have hloop : finishLoop fdt₄.fuel fdt₄ 0 =
        .ok (((0 + (body draftOff (es ++ [.fin])).length : ℕ) : ℤ), fdt₅) := hloop
    obtain ⟨hextent₅, hwords₅⟩ := hkeeps₅.extent hextent (by omega)
    have hsizeStrings₅ : fdt₅.sizeDtStrings = strs.length := (hwords₅ 8 (by decide)).trans hsizeStrings
    have htotal : u32 (((48 + reserves.length + (body draftOff (es ++ [.fin])).length : ℕ) : ℤ) + (strs.length : ℕ)) =
        48 + reserves.length + (body draftOff (es ++ [.fin])).length + strs.length := by
      rw [← Int.natCast_add, u32_natCast (by omega)]
    rw [hloop, ok_bind]
    dsimp only
    rw [if_neg (Int.not_lt.mpr (Int.natCast_nonneg _)), hsizeStrings₅, htotal]
    rw [hstruct, Nat.add_zero] at hfinal hkeeps₅
    refine ⟨_, rfl, .inr ⟨rfl, finished_setWord (by omega) ?_ ?_ ?_ ?_ ?_ ?_ ?_ ?_ ?_ ?_ hfinal ?_ h₂.fits⟩⟩
    · exact (hwords₅ 5 (by decide)).trans ((hwords 5 (by decide) (by decide)).trans h₂.version)
    · exact (hwords₅ 6 (by decide)).trans ((hwords 6 (by decide) (by decide)).trans h₂.comp)
    · exact (hwords₅ 4 (by decide)).trans ((hwords 4 (by decide) (by decide)).trans h₂.rsvmap)
    · exact (hwords₅ 2 (by decide)).trans hstruct
    · exact (hwords₅ 3 (by decide)).trans hoffset
    · exact (hwords₅ 9 (by decide)).trans ((hwords 9 (by decide) (by decide)).trans h₂.sizeStruct)
    · exact length_body _ _ _
    · have hlen := hset.length
      have hlen₃ := hkeeps₃.length
      have hlen₅ := hkeeps₅.length
      omega
    · omega
    · exact hkeeps₅.hasAt hreserves (.inl le_rfl)
    · exact hkeeps₅.hasAt hstrs (.inr le_rfl)

end Finishing

section Runs

variable {fdt : Fdt} {reserves : List Byte}

/-- The words that `fdt_create` sets, and nothing behind the header. -/
theorem fdtCreate_spec {buf : List Byte} {bufsize : ℕ} (hmin : 48 ≤ bufsize) (hmax : bufsize < 2 ^ 31)
    (hbuf : bufsize ≤ buf.length) : ∃ fdt, fdtCreate buf bufsize = .ok (.ok fdt) ∧
      fdt.totalsize = bufsize ∧ Drafts fdt [] [] [] := by
  rw [fdtCreate, dif_neg (by omega), if_neg (Nat.not_lt.mpr hbuf)]
  generalize hfdt₀ : (⟨List.replicate bufsize 0#8 ++ buf.drop bufsize, _⟩ : Fdt) = fdt₀
  have hlen : bufsize ≤ fdt₀.bytes.length := by
    rw [← hfdt₀, List.length_append, List.length_replicate]
    exact Nat.le_add_right _ _
  have hzero : ∀ i < 10, fdt₀.word i = 0 := by
    intro i hi
    have hplace : HasAt fdt₀.bytes (4 * i) (List.replicate 4 0#8) := by
      rw [← hfdt₀]
      exact (hasAt_replicate (by omega)).append _
    rw [Fdt.word, hplace.slice List.length_replicate]
    rfl
  have h48 : align 40 16 = 48 := rfl
  have hsw : fdtSwMagic < 2 ^ 32 := by decide
  refine ⟨_, rfl, ?_⟩
  rw [h48]
  generalize hfdt₁ : ((((fdt₀.setWord 0 fdtSwMagic).setWord 5 lastSupportedVersion).setWord 6
    firstSupportedVersion).setWord 1 bufsize).setWord 4 48 = fdt₁
  have hrsvmap : fdt₁.offMemRsvmap = 48 := by
    rw [← hfdt₁]
    exact word_setWord _ (by decide) (by decide)
  rw [hrsvmap]
  generalize hfdt₂ : (fdt₁.setWord 2 48).setWord 3 bufsize = fdt₂
  have hwords : ∀ j < 10, fdt₂.word j = if j = 3 then bufsize else if j = 2 then 48 else if j = 4 then 48
      else if j = 1 then bufsize else if j = 6 then firstSupportedVersion
      else if j = 5 then lastSupportedVersion else if j = 0 then fdtSwMagic else 0 := by
    intro j hj
    rw [← hfdt₂, ← hfdt₁, word_setWord_eq _ (by decide) (by omega) hj, word_setWord_eq _ (by decide) (by decide) hj,
      word_setWord_eq _ (by decide) (by decide) hj, word_setWord_eq _ (by decide) (by omega) hj,
      word_setWord_eq _ (by decide) (by decide) hj, word_setWord_eq _ (by decide) (by decide) hj,
      word_setWord_eq _ (by decide) hsw hj, hzero j hj]
  have hlen₂ : fdt₂.bytes.length = fdt₀.bytes.length := by
    rw [← hfdt₂, ← hfdt₁]
    simp only [length_setWord _ (by decide : 3 < 10), length_setWord _ (by decide : 2 < 10),
      length_setWord _ (by decide : 4 < 10), length_setWord _ (by decide : 1 < 10),
      length_setWord _ (by decide : 6 < 10), length_setWord _ (by decide : 5 < 10),
      length_setWord _ (by decide : 0 < 10)]
  have htotal : fdt₂.totalsize = bufsize := (hwords 1 (by decide)).trans (by simp)
  refine ⟨htotal, ?_⟩
  constructor
  case magic => exact (hwords 0 (by decide)).trans (by simp)
  case version => exact (hwords 5 (by decide)).trans (by simp)
  case comp => exact (hwords 6 (by decide)).trans (by simp)
  case rsvmap => exact (hwords 4 (by decide)).trans (by simp)
  case struct => exact (hwords 2 (by decide)).trans (by simp)
  case sizeStruct => exact (hwords 9 (by decide)).trans (by simp [body])
  case sizeStrings => exact (hwords 8 (by decide)).trans (by simp)
  case room => rw [htotal]; exact hmin
  case memory => rw [htotal, hlen₂]; exact hlen
  case small => rw [htotal]; exact hmax
  case reservesAt => exact hasAt_nil (by omega)
  case bodyAt => exact hasAt_nil (by rw [List.length_nil]; omega)
  case strsAt => exact hasAt_nil (by rw [List.length_nil]; omega)
  case fits => exact fun e he => absurd he List.not_mem_nil

/-- A name of 48 letters in the smallest buffer. -/
theorem fdtProperty_outside_sample : ∃ fdt, fdtCreate (List.replicate 48 0#8) 48 = .ok (.ok fdt) ∧
    fdtProperty fdt ⟨List.replicate 48 0x61#8, by decide⟩ [] = .error .outside := by
  obtain ⟨fdt, hcreate, htotal, h⟩ := fdtCreate_spec (show 48 ≤ 48 by decide) (by decide) List.length_replicate.ge
  refine ⟨fdt, hcreate, (fdtProperty_outside h (by decide) (by decide)).mpr ⟨by decide, ?_⟩⟩
  rw [htotal]
  decide

def reserveBytes (re : BitVec 64 × BitVec 64) : List Byte := toBytes 8 re.1.toNat ++ toBytes 8 re.2.toNat

theorem length_reserveBytes (re : BitVec 64 × BitVec 64) : (reserveBytes re).length = 16 := by
  simp [reserveBytes]

theorem fdtAddReservemapEntry_spec (h : Drafts fdt reserves [] []) (addr size : BitVec 64) :
    ∃ r, fdtAddReservemapEntry fdt addr size = .ok r ∧
      (r.1 = -errNospace ∨ r.1 = 0 ∧ Drafts r.2 (reserves ++ reserveBytes (addr, size)) [] []) := by
  have hroom : 48 + reserves.length ≤ fdt.totalsize := h.room
  have hsmall := h.small
  have hmemory := h.memory
  have hlen := length_reserveBytes (addr, size)
  have hoffset : int32 (fdt.offDtStruct : ℤ) = ((48 + reserves.length : ℕ) : ℤ) := by
    rw [h.struct, int32_natCast (by omega)]
  have hend : ((48 + reserves.length : ℕ) : ℤ) + 16 = ((48 + reserves.length + 16 : ℕ) : ℤ) := rfl
  have hzero : fdt.sizeDtStruct = 0 := h.sizeStruct
  rw [fdtAddReservemapEntry, if_neg (not_not.mpr h.check), if_neg (not_not.mpr hzero)]
  dsimp only
  rw [hoffset, hend, u64_natCast (by omega), place_natCast]
  split
  · exact ⟨_, rfl, .inl rfl⟩
  · next hfits =>
    obtain ⟨fdt₁, hstore, hkeeps, hplace⟩ := storeBytes_spec fdt (48 + reserves.length) (reserveBytes (addr, size))
      (by omega)
    have hset := keeps_setWord fdt₁ (i := 2) (by decide) (48 + reserves.length + 16)
    have hstruct : (fdt₁.setWord 2 (48 + reserves.length + 16)).offDtStruct = 48 + reserves.length + 16 :=
      word_setWord fdt₁ (by decide) (by omega)
    rw [reserveBytes] at hstore
    rw [ok_bind, hstore, ok_bind, u32_natCast (by omega)]
    refine ⟨_, rfl, .inr ⟨rfl, ?_⟩⟩
    dsimp only
    generalize fdt₁.setWord 2 (48 + reserves.length + 16) = fdt₂ at *
    have hwords : ∀ i < 10, i ≠ 2 → fdt₂.word i = fdt.word i := by
      intro i hi hne
      rw [hset.word hi (by omega), hkeeps.word hi (by omega)]
    have htotal : fdt₂.totalsize = fdt.totalsize := hwords 1 (by decide) (by decide)
    constructor
    case magic => exact (hwords 0 (by decide) (by decide)).trans h.magic
    case version => exact (hwords 5 (by decide) (by decide)).trans h.version
    case comp => exact (hwords 6 (by decide) (by decide)).trans h.comp
    case rsvmap => exact (hwords 4 (by decide) (by decide)).trans h.rsvmap
    case struct => rw [hstruct, List.length_append, hlen, Nat.add_assoc]
    case sizeStruct => exact (hwords 9 (by decide) (by decide)).trans h.sizeStruct
    case sizeStrings => exact (hwords 8 (by decide) (by decide)).trans h.sizeStrings
    case room =>
      rw [htotal, List.length_append, hlen]
      exact Nat.not_lt.mp hfits
    case memory =>
      rw [htotal, hset.length, hkeeps.length]
      exact hmemory
    case small => exact htotal ▸ hsmall
    case reservesAt =>
      refine hasAt_append.mpr ⟨hset.hasAt (hkeeps.hasAt h.reservesAt (.inl le_rfl)) (by omega), ?_⟩
      exact hset.hasAt hplace (by omega)
    case bodyAt =>
      refine hasAt_nil ?_
      rw [List.length_append, hlen, hset.length, hkeeps.length]
      omega
    case strsAt =>
      rw [htotal]
      exact hset.hasAt (hkeeps.hasAt h.strsAt (by simp; omega)) (by simp; omega)
    case fits => exact fun e he => absurd he List.not_mem_nil

theorem addReserves_spec (h : Drafts fdt reserves [] []) (res : List (BitVec 64 × BitVec 64)) :
    ∃ r, addReserves fdt res = .ok r ∧ (r.1 = -errNospace ∨
      r.1 = 0 ∧ Drafts r.2 (reserves ++ (res ++ [(0, 0)]).flatMap reserveBytes) [] []) := by
  induction res generalizing fdt reserves with
  | nil => exact fdtAddReservemapEntry_spec h 0 0
  | cons re res ih =>
    obtain ⟨⟨r, fdt₁⟩, hrun, herr | ⟨hzero, hadded⟩⟩ := fdtAddReservemapEntry_spec h re.1 re.2
    · have herr : r = -errNospace := herr
      refine ⟨(r, fdt₁), ?_, .inl herr⟩
      rw [addReserves, hrun, ok_bind]
      dsimp only
      rw [if_pos (by rw [herr]; decide)]
      rfl
    · have hzero : r = 0 := hzero
      obtain ⟨r', hrest, hspec⟩ := ih hadded
      refine ⟨r', ?_, ?_⟩
      · rw [addReserves, hrun, ok_bind]
        dsimp only
        rw [if_neg (not_not.mpr hzero)]
        exact hrest
      · rwa [List.append_assoc, ← List.flatMap_cons] at hspec

/-- The calls and the end of the blob: the calls that succeed, and the blob. -/
def writeCalls (fdt : Fdt) (calls : List Call) : Access (Except ℤ (List Call × Fdt)) := do
  let (done, fdt) ← runCalls fdt calls
  let (r, fdt) ← fdtFinish fdt
  if r ≠ 0 then pure (.error r) else pure (.ok (done, fdt))

/-- A blob from its creation to its end. -/
def writeSequence (buf : List Byte) (bufsize : ℕ) (res : List (BitVec 64 × BitVec 64)) (calls : List Call) :
    Access (Except ℤ (List Call × Fdt)) := do
  match ← fdtCreate buf bufsize with
  | .error err => pure (.error err)
  | .ok fdt =>
    let (r, fdt) ← addReserves fdt res
    if r ≠ 0 then pure (.error r) else writeCalls fdt calls

theorem length_reserves (res : List (BitVec 64 × BitVec 64)) :
    ((res ++ [(0, 0)]).flatMap reserveBytes).length = 16 * (res.length + 1) := by
  rw [List.length_flatMap, List.map_congr_left fun re _ => length_reserveBytes re, List.map_const', List.sum_replicate,
    List.length_append, smul_eq_mul, Nat.mul_comm]
  rfl

/-- A name that is longer than all that stands in front of the tags can lead out of the buffer. -/
theorem writeCalls_spec (h : Drafts fdt reserves [] []) (calls : List Call) (hcalls : ∀ c ∈ calls, c.Small) :
    writeCalls fdt calls = .ok (.error (-errNospace)) ∨
      (∃ done fdt', writeCalls fdt calls = .ok (.ok (done, fdt')) ∧ Finished fdt' reserves (done.map Call.tag)) ∨
      writeCalls fdt calls = .error .outside ∧ ∃ c ∈ calls, c.Long (48 + reserves.length) := by
  rw [writeCalls]
  obtain ⟨done, fdt₁, es, strs, hrun, h₁, htags⟩ | ⟨hout, hlong⟩ := runCalls_spec h calls hcalls
  · rw [List.nil_append] at h₁
    have hbody : ∀ e ∈ es, e ≠ .fin := by
      rintro e he rfl
      have hmem := List.mem_map_of_mem (f := Entry.tag) he
      rw [htags] at hmem
      obtain ⟨c, -, hc⟩ := List.mem_map.mp hmem
      cases c <;> cases hc
    obtain ⟨⟨r, fdt₂⟩, hfinish, hend⟩ := fdtFinish_spec h₁ hbody
    rw [hrun, ok_bind]
    dsimp only
    rw [hfinish, ok_bind]
    dsimp only at hend ⊢
    obtain rfl | ⟨rfl, hfinished⟩ := hend
    · rw [if_pos (by decide)]
      exact .inl rfl
    · rw [htags] at hfinished
      rw [if_neg (not_not.mpr rfl)]
      exact .inr (.inl ⟨done, fdt₂, rfl, hfinished⟩)
  · rw [hout]
    exact .inr (.inr ⟨rfl, hlong⟩)

/-- In front of the calls there is not enough space for the reservations, or the blob has them. -/
theorem writeSequence_begin {buf : List Byte} {bufsize : ℕ} (hmin : 48 ≤ bufsize) (hmax : bufsize < 2 ^ 31)
    (hbuf : bufsize ≤ buf.length) (res : List (BitVec 64 × BitVec 64)) (calls : List Call) :
    writeSequence buf bufsize res calls = .ok (.error (-errNospace)) ∨
      ∃ fdt, writeSequence buf bufsize res calls = writeCalls fdt calls ∧
        Drafts fdt ((res ++ [(0, 0)]).flatMap reserveBytes) [] [] := by
  obtain ⟨fdt₀, hcreate, -, h₀⟩ := fdtCreate_spec hmin hmax hbuf
  obtain ⟨⟨r, fdt₁⟩, hres, hspec⟩ := addReserves_spec h₀ res
  rw [writeSequence, hcreate, ok_bind]
  dsimp only
  rw [hres, ok_bind]
  dsimp only at hspec ⊢
  obtain rfl | ⟨rfl, h₁⟩ := hspec
  · rw [if_pos (by decide)]
    exact .inl rfl
  · rw [if_neg (not_not.mpr rfl)]
    exact .inr ⟨fdt₁, rfl, h₁⟩

mutual
def callsOf : Dtc.Node → List Call
  | .mk info children =>
    .beginNode info.name :: (info.proplist.map (fun p => .property p.name p.val.val) ++
      (callsOfChildren children ++ [.endNode]))
def callsOfChildren : List Dtc.Node → List Call
  | [] => []
  | c :: cs => callsOf c ++ callsOfChildren cs
end

theorem map_tag_callsOf (t : Dtc.Node) : (callsOf t).map Call.tag = tagsOf t := by
  induction t with
  | mk info children ih =>
    have hchildren : (callsOfChildren children).map Call.tag = tagsOfChildren children := by
      induction children with
      | nil => rfl
      | cons c cs ihcs =>
        rw [callsOfChildren, tagsOfChildren, List.map_append, ih c List.mem_cons_self,
          ihcs fun d hd => ih d (List.mem_cons_of_mem c hd)]
    rw [callsOf, tagsOf, List.map_cons, List.map_append, List.map_append, hchildren, List.map_map]
    rfl

/-- `/ { c = [01 02]; b { }; };` -/
def sequenceTree : Dtc.Node :=
  .mk { proplist := [{ name := ⟨[0x63#8], by decide⟩, val := { val := [1#8, 2#8] } }] }
    [.mk { name := ⟨[0x62#8], by decide⟩ } []]

theorem small_sequenceTree : ∀ c ∈ callsOf sequenceTree, c.Small := by
  simp [sequenceTree, callsOf, callsOfChildren, Call.Small, CString.bytes, CString.empty]

/-- There is enough space for `sequenceTree` and a reservation. -/
theorem write_sequenceTree : ∃ fdt, writeSequence (List.replicate 160 0#8) 160 [(4096, 16)] (callsOf sequenceTree) =
    .ok (.ok (callsOf sequenceTree, fdt)) := by
  have hdone : (writeSequence (List.replicate 160 0#8) 160 [(4096, 16)] (callsOf sequenceTree)).map
      (·.map Prod.fst) = .ok (.ok (callsOf sequenceTree)) := by decide +kernel
  generalize writeSequence _ _ _ _ = run at hdone ⊢
  obtain _ | _ | ⟨done, fdt⟩ := run
  · cases hdone
  · cases hdone
  · obtain rfl : done = callsOf sequenceTree := Except.ok.inj (Except.ok.inj hdone)
    exact ⟨fdt, rfl⟩

/-- Whatever is called between the reservations and the end: there is not enough space for the blob, or
it has the reservations and the tags of the calls that succeeded, or the name of a property is longer
than the header and the reservations together and is written in front of the buffer. -/
theorem writeSequence_spec {buf : List Byte} {bufsize : ℕ} (hmin : 48 ≤ bufsize) (hmax : bufsize < 2 ^ 31)
    (hbuf : bufsize ≤ buf.length) (res : List (BitVec 64 × BitVec 64)) (calls : List Call)
    (hcalls : ∀ c ∈ calls, c.Small) : writeSequence buf bufsize res calls = .ok (.error (-errNospace)) ∨
      (∃ done fdt, writeSequence buf bufsize res calls = .ok (.ok (done, fdt)) ∧
        Finished fdt ((res ++ [(0, 0)]).flatMap reserveBytes) (done.map Call.tag)) ∨
      writeSequence buf bufsize res calls = .error .outside ∧ ∃ c ∈ calls, c.Long (48 + 16 * (res.length + 1)) := by
  obtain hfail | ⟨fdt, hwrite, h⟩ := writeSequence_begin hmin hmax hbuf res calls
  · exact .inl hfail
  · have hend := writeCalls_spec h calls hcalls
    rw [length_reserves] at hend
    rw [hwrite]
    exact hend

theorem writeSequence_spec_sample : ∃ fdt,
    writeSequence (List.replicate 160 0#8) 160 [(4096, 16)] (callsOf sequenceTree) =
        .ok (.ok (callsOf sequenceTree, fdt)) ∧
      Finished fdt (([(4096, 16)] ++ [(0, 0)] : List (BitVec 64 × BitVec 64)).flatMap reserveBytes)
        ((callsOf sequenceTree).map Call.tag) := by
  have hbuf : 160 ≤ (List.replicate 160 0#8).length := List.length_replicate.ge
  obtain ⟨fdt, hdone⟩ := write_sequenceTree
  obtain hfail | ⟨done, fdt', hrun, hfinished⟩ | ⟨hout, -⟩ :=
    writeSequence_spec (by decide) (by decide) hbuf [(4096, 16)] (callsOf sequenceTree) small_sequenceTree
  · rw [hdone] at hfail
    cases hfail
  · obtain ⟨rfl, rfl⟩ := Prod.mk.inj (Except.ok.inj (Except.ok.inj (hdone.symm.trans hrun)))
    exact ⟨fdt, hdone, hfinished⟩
  · rw [hdone] at hout
    cases hout

/-- A tree that is written in sequence, with any calls that fail in between, is read by path and
name. -/
theorem writeSequence_read {buf : List Byte} {bufsize fuel : ℕ} {res : List (BitVec 64 × BitVec 64)}
    {calls : List Call} {t : Dtc.Node} {fdt : Fdt} {path name : CString} (hmin : 48 ≤ bufsize)
    (hmax : bufsize < 2 ^ 31) (hbuf : bufsize ≤ buf.length) (hcalls : ∀ c ∈ calls, c.Small)
    (hrun : writeSequence buf bufsize res calls = .ok (.ok (callsOf t, fdt)))
    (habsolute : path.chars.head? = some 0x2F#8) (hpath : path.chars.length < 2 ^ 31) :
    readProp fdt (fuel + 1) path name = .ok ((valueAt path name t).elim (.error (-errNotfound)) .ok) := by
  obtain hfail | ⟨fdt₀, hwrite, h⟩ := writeSequence_begin hmin hmax hbuf res calls
  · rw [hfail] at hrun
    cases hrun
  · rw [hwrite] at hrun
    obtain hfail | ⟨done, fdt', hdone, hfinished⟩ | ⟨hout, -⟩ := writeCalls_spec h calls hcalls
    · rw [hfail] at hrun
      cases hrun
    · obtain ⟨rfl, rfl⟩ := Prod.mk.inj (Except.ok.inj (Except.ok.inj (hrun.symm.trans hdone)))
      obtain ⟨n, hextent, hchain⟩ := hfinished.tags
      rw [map_tag_callsOf] at hchain
      obtain ⟨mid, htree, -⟩ := chain_append.mp hchain
      exact readProp_of_nodeAt hextent hfinished.header habsolute hpath ⟨mid, htree⟩
    · rw [hout] at hrun
      cases hrun

theorem writeSequence_read_sample : ∃ fdt,
    writeSequence (List.replicate 160 0#8) 160 [(4096, 16)] (callsOf sequenceTree) =
        .ok (.ok (callsOf sequenceTree, fdt)) ∧
      readProp fdt 1 ⟨[0x2F#8], by decide⟩ ⟨[0x63#8], by decide⟩ = .ok (.ok [1#8, 2#8]) := by
  have hbuf : 160 ≤ (List.replicate 160 0#8).length := List.length_replicate.ge
  obtain ⟨fdt, hrun⟩ := write_sequenceTree
  exact ⟨fdt, hrun, writeSequence_read (by decide) (by decide) hbuf small_sequenceTree hrun rfl (by decide)⟩

end Runs

end PynqPrio.Libfdt
