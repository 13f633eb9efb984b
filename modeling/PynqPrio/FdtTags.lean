import PynqPrio.FdtRead

/-!
# The tags of a blob

Where the bytes of a tag stand, `fdt_next_tag` finds the tag and the place of the next one. A walk
over tags takes less fuel than the blob has bytes.
-/
namespace PynqPrio.Libfdt
open Formats

/-- A tag with what it stands in front of. -/
inductive Tag
  | beginNode (name : CString)
  | prop (name : CString) (val : List Byte)
  | endNode
  | fin

def Tag.code : Tag → ℕ
  | beginNode _ => fdtBeginNode
  | prop _ _ => fdtProp
  | endNode => fdtEndNode
  | fin => fdtEnd

/-- The structure block has `n` bytes, and all of the blob is in the memory. -/
structure Extent (fdt : Fdt) (n : ℕ) : Prop where
  struct : fdt.offDtStruct + n ≤ fdt.totalsize
  size : 17 ≤ fdt.version → n ≤ fdt.sizeDtStruct
  memory : fdt.totalsize ≤ fdt.bytes.length
  small : fdt.totalsize < 2 ^ 31

/-- The bytes of a tag stand at `off`, and the next tag is at `off'`. -/
inductive TagAt (fdt : Fdt) (n : ℕ) : ℕ → Tag → ℕ → Prop
  | beginNode {off off' : ℕ} {name : CString} (haligned : 4 ∣ off)
      (hplace : HasAt fdt.bytes (fdt.offDtStruct + off) (toBytes 4 fdtBeginNode ++ name.bytes))
      (hnext : off' = align (off + 4 + name.bytes.length) 4) (hlimit : off' ≤ n) :
      TagAt fdt n off (.beginNode name) off'
  | prop {off off' nameoff : ℕ} {name : CString} {val : List Byte} (haligned : 4 ∣ off)
      (hplace : HasAt fdt.bytes (fdt.offDtStruct + off)
        (toBytes 4 fdtProp ++ (toBytes 4 val.length ++ (toBytes 4 nameoff ++ val))))
      (hname : HasAt fdt.bytes (fdt.offDtStrings + nameoff) name.bytes) (hnameoff : nameoff < 2 ^ 31)
      (hnext : off' = align (off + 12 + val.length) 4) (hlimit : off' ≤ n) :
      TagAt fdt n off (.prop name val) off'
  | endNode {off : ℕ} (haligned : 4 ∣ off)
      (hplace : HasAt fdt.bytes (fdt.offDtStruct + off) (toBytes 4 fdtEndNode)) (hlimit : off + 4 ≤ n) :
      TagAt fdt n off .endNode (off + 4)
  | fin {off : ℕ} (haligned : 4 ∣ off)
      (hplace : HasAt fdt.bytes (fdt.offDtStruct + off) (toBytes 4 fdtEnd)) (hlimit : off + 4 ≤ n) :
      TagAt fdt n off .fin (off + 4)

section Loads

variable {fdt : Fdt} {n p : ℕ} {bs : List Byte}

theorem loadBytes_of_le (h : p + n ≤ fdt.bytes.length) : loadBytes fdt p n = .ok (slice fdt.bytes p n) := by
  rw [loadBytes, if_neg (Nat.not_lt.mpr h)]
  rfl

theorem loadBytes_of_hasAt (h : HasAt fdt.bytes p bs) (hn : bs.length = n) : loadBytes fdt p n = .ok bs := by
  rw [loadBytes_of_le (hn ▸ h.le), h.slice hn]

theorem load32_of_hasAt {v : ℕ} (hv : v < 2 ^ 32) (h : HasAt fdt.bytes p (toBytes 4 v)) :
    load32 fdt p = .ok v := by
  rw [load32, loadBytes_of_hasAt h (length_toBytes 4 v)]
  exact congrArg Except.ok (ofBytes_toBytes_of_lt hv)

theorem load8_of_hasAt {b : Byte} (h : HasAt fdt.bytes p (b :: bs)) : load8 fdt p = .ok b := by
  rw [load8, h.getElem?]
  rfl

theorem loadString_of_hasAt {str : CString} (h : HasAt fdt.bytes p str.bytes) :
    loadString fdt p = .ok str := by
  rw [loadString, CString.scan_of_hasAt h h.le]
  rfl

end Loads

section Pointers

variable {fdt : Fdt} {n off len : ℕ}

theorem fdtOffsetPtr_of_le (h : Extent fdt n) (hle : off + len ≤ n) :
    fdtOffsetPtr fdt off len = some (fdt.offDtStruct + off) := by
  have hstruct := h.struct
  have hsize := h.size
  have hsmall := h.small
  have habs : u32 ((off : ℤ) + (fdt.offDtStruct : ℕ)) = fdt.offDtStruct + off := by
    rw [← Int.natCast_add, u32_natCast (by omega), Nat.add_comm]
  have hend : u32 (((fdt.offDtStruct + off : ℕ) : ℤ) + (len : ℕ)) = fdt.offDtStruct + off + len := by
    rw [← Int.natCast_add, u32_natCast (by omega)]
  have hoff : u32 (off : ℤ) = off := u32_natCast (by omega)
  have hofflen : u32 ((off : ℤ) + (len : ℕ)) = off + len := by
    rw [← Int.natCast_add, u32_natCast (by omega)]
  rw [fdtOffsetPtr]
  simp only [habs, hend, hoff, hofflen]
  rw [if_neg (by omega), if_neg (by omega)]

/-- What `fdt_offset_ptr` gives is within the blob, whatever it is asked for. -/
theorem fdtOffsetPtr_le {offset : ℤ} {p : ℕ} (hlen : len < 2 ^ 32) (h : fdtOffsetPtr fdt offset len = some p) :
    p + len ≤ fdt.totalsize := by
  rw [fdtOffsetPtr] at h
  split at h
  · cases h
  · next hchecks =>
    split at h
    · cases h
    · have hp := Option.some.inj h
      simp only [hp] at hchecks
      have hlt : p < 2 ^ 32 := by
        rw [← hp, u32]
        omega
      simp only [u32] at hchecks
      omega

theorem word_lt (fdt : Fdt) (i : ℕ) : fdt.word i < 2 ^ 32 := by
  have hlen : (slice fdt.bytes (4 * i) 4).length ≤ 4 := by
    rw [slice, List.length_take]
    exact Nat.min_le_left _ _
  exact (ofBytes_lt _).trans_le (Nat.pow_le_pow_right (n := 256) (by decide) hlen)

theorem fdtOffsetPtr_eq {p : ℕ} (hoff : off < 2 ^ 32) (h : fdtOffsetPtr fdt off len = some p) :
    p = fdt.offDtStruct + off := by
  have hstruct : fdt.offDtStruct < 2 ^ 32 := word_lt fdt 2
  have hword : u32 (off : ℤ) = off := u32_natCast hoff
  rw [fdtOffsetPtr] at h
  simp only [hword] at h
  split at h
  · cases h
  · next hchecks =>
    -- a sum that wraps around is less than the offset
    have hsum : ¬u32 ((off : ℤ) + (fdt.offDtStruct : ℕ)) < off := fun hlt => hchecks (.inl hlt)
    split at h
    · cases h
    · obtain rfl := Option.some.inj h
      rw [u32] at hsum ⊢
      omega

end Pointers

section NextTag

variable {fdt : Fdt} {n off off' : ℕ} {tag : Tag}

/-- The name of a node is skipped up to the end of it. -/
theorem skipName_of_hasAt (h : Extent fdt n) {name : CString} {fuel : ℕ}
    (hplace : HasAt fdt.bytes (fdt.offDtStruct + off) name.bytes) (hlimit : off + name.bytes.length ≤ n)
    (hfuel : name.bytes.length ≤ fuel) :
    skipName fdt fuel off = .ok (some ((off + name.bytes.length : ℕ) : ℤ)) := by
  obtain ⟨chars, noNul⟩ := name
  induction chars generalizing off fuel with
  | nil =>
    obtain ⟨fuel, rfl⟩ := Nat.exists_eq_add_of_le' hfuel
    have hchar := load8_of_hasAt hplace
    rw [CString.length_bytes, List.length_nil, Nat.zero_add] at hlimit ⊢
    rw [skipName, fdtOffsetPtr_of_le h hlimit]
    simp only [hchar, bind, Except.bind]
    rfl
  | cons c chars ih =>
    have hc : c ≠ 0#8 := fun h => noNul (h ▸ List.mem_cons_self)
    have hchars : 0#8 ∉ chars := fun h => noNul (List.mem_cons_of_mem _ h)
    have hchar := load8_of_hasAt hplace
    have hrest : HasAt fdt.bytes (fdt.offDtStruct + (off + 1)) (CString.bytes ⟨chars, hchars⟩) := by
      rw [← Nat.add_assoc]
      exact hplace.tail
    have hlen : (CString.bytes ⟨c :: chars, noNul⟩).length = (CString.bytes ⟨chars, hchars⟩).length + 1 := by
      rw [CString.length_bytes, CString.length_bytes, List.length_cons]
    rw [hlen] at hlimit hfuel ⊢
    obtain ⟨fuel, rfl⟩ := Nat.exists_eq_add_of_le' (Nat.le_of_add_left_le hfuel)
    have hih := ih hchars hrest (by omega) (Nat.le_of_add_le_add_right hfuel)
    rw [skipName, fdtOffsetPtr_of_le h (by omega)]
    simp only [hchar, bind, Except.bind]
    rw [if_neg hc]
    rw [show ((off : ℕ) : ℤ) + 1 = ((off + 1 : ℕ) : ℤ) from rfl, hih, Nat.add_right_comm, Nat.add_assoc]

theorem fdtNextTag_of_tagEnd (h : Extent fdt n) {code e : ℕ} (hcode : code < 2 ^ 32)
    (hplace : HasAt fdt.bytes (fdt.offDtStruct + off) (toBytes 4 code)) (hlo : off + 4 ≤ e)
    (hhi : align e 4 ≤ n) (hend : tagEnd fdt code ((off : ℤ) + 4) = .ok (some (e : ℤ))) :
    fdtNextTag fdt off = .ok (code, (align e 4 : ℕ)) := by
  have hsmall := h.small
  have hstruct := h.struct
  have halign := le_align (a := 4) (by decide) e
  have hsub : u32 ((e : ℤ) - off) = e - off := by
    rw [← Int.ofNat_sub (by omega), u32_natCast (by omega)]
  have hnext : int32 ((align e 4 : ℕ) : ℤ) = (align e 4 : ℕ) := int32_natCast (by omega)
  have hword := load32_of_hasAt hcode hplace
  rw [fdtNextTag, fdtOffsetPtr_of_le h (by omega)]
  simp only [hword, hend, hsub, bind, Except.bind]
  rw [fdtOffsetPtr_of_le h (by omega), ← hnext]
  rfl

theorem fdtNextTag_of_beginNode (h : Extent fdt n) {name : CString}
    (hplace : HasAt fdt.bytes (fdt.offDtStruct + off) (toBytes 4 fdtBeginNode ++ name.bytes))
    (hlimit : align (off + 4 + name.bytes.length) 4 ≤ n) :
    fdtNextTag fdt off = .ok (fdtBeginNode, (align (off + 4 + name.bytes.length) 4 : ℕ)) := by
  have hstruct := h.struct
  have hmemory := h.memory
  have hright := hplace.right
  rw [length_toBytes, Nat.add_assoc] at hright
  have halign := le_align (a := 4) (by decide) (off + 4 + name.bytes.length)
  refine fdtNextTag_of_tagEnd h (by decide) hplace.left (by omega) hlimit ?_
  rw [tagEnd, if_pos rfl, show ((off : ℕ) : ℤ) + 4 = ((off + 4 : ℕ) : ℤ) from rfl]
  exact skipName_of_hasAt h hright (by omega) (by omega)

theorem fdtNextTag_of_prop (h : Extent fdt n) {len : ℕ}
    (hplace : HasAt fdt.bytes (fdt.offDtStruct + off) (toBytes 4 fdtProp ++ toBytes 4 len))
    (hlimit : align (off + 12 + len) 4 ≤ n) :
    fdtNextTag fdt off = .ok (fdtProp, (align (off + 12 + len) 4 : ℕ)) := by
  have hsmall := h.small
  have hstruct := h.struct
  have hright := hplace.right
  rw [length_toBytes, Nat.add_assoc] at hright
  have halign := le_align (a := 4) (by decide) (off + 12 + len)
  have hword := load32_of_hasAt (v := len) (by omega) hright
  refine fdtNextTag_of_tagEnd h (by decide) hplace.left (by omega) hlimit ?_
  have hptr : fdtOffsetPtr fdt ((off + 4 : ℕ) : ℤ) 4 = some (fdt.offDtStruct + (off + 4)) :=
    fdtOffsetPtr_of_le h (by omega)
  have hsum : ((off : ℕ) : ℤ) + 4 + 8 + (len : ℕ) = ((off + 12 + len : ℕ) : ℤ) := by omega
  have hend : int32 ((off : ℤ) + 4 + 8 + (len : ℕ)) = ((off + 12 + len : ℕ) : ℤ) := by
    rw [hsum, int32_of_lt (Int.natCast_nonneg _) (by omega)]
  rw [tagEnd, if_neg (by decide), if_pos rfl]
  rw [show ((off : ℕ) : ℤ) + 4 = ((off + 4 : ℕ) : ℤ) from rfl] at hend ⊢
  rw [hptr]
  simp only [hword, bind, Except.bind, hend]
  rfl

/-- Neither the end of a node nor that of the tree has anything behind its tag. -/
theorem fdtNextTag_of_end (h : Extent fdt n) {code : ℕ} (hcode : code = fdtEndNode ∨ code = fdtEnd)
    (haligned : 4 ∣ off) (hplace : HasAt fdt.bytes (fdt.offDtStruct + off) (toBytes 4 code))
    (hlimit : off + 4 ≤ n) : fdtNextTag fdt off = .ok (code, ((off + 4 : ℕ) : ℤ)) := by
  have hsame := align_of_dvd (a := 4) (by decide) (Nat.dvd_add haligned ⟨1, rfl⟩)
  rw [← hsame]
  refine fdtNextTag_of_tagEnd h ?_ hplace le_rfl (hsame.le.trans hlimit) ?_
  · obtain rfl | rfl := hcode <;> decide
  · obtain rfl | rfl := hcode <;> rfl

/-- The next tag is found behind the tag at `off`. -/
theorem fdtNextTag_of_tagAt (h : Extent fdt n) (htag : TagAt fdt n off tag off') :
    fdtNextTag fdt off = .ok (tag.code, (off' : ℤ)) := by
  cases htag with
  | beginNode haligned hplace hnext hlimit =>
    rw [hnext]
    exact fdtNextTag_of_beginNode h hplace (hnext ▸ hlimit)
  | prop haligned hplace hname hnameoff hnext hlimit =>
    rw [← List.append_assoc] at hplace
    rw [hnext]
    exact fdtNextTag_of_prop h hplace.left (hnext ▸ hlimit)
  | endNode haligned hplace hlimit => exact fdtNextTag_of_end h (.inl rfl) haligned hplace hlimit
  | fin haligned hplace hlimit => exact fdtNextTag_of_end h (.inr rfl) haligned hplace hlimit

theorem TagAt.lt (htag : TagAt fdt n off tag off') : off + 4 ≤ off' ∧ off' ≤ n ∧ 4 ∣ off ∧ 4 ∣ off' := by
  cases htag with
  | beginNode haligned hplace hnext hlimit =>
    next name =>
    have halign := le_align (a := 4) (by decide) (off + 4 + name.bytes.length)
    exact ⟨by omega, hlimit, haligned, hnext ▸ dvd_align _ _⟩
  | prop haligned hplace hname hnameoff hnext hlimit =>
    next nameoff name val =>
    have halign := le_align (a := 4) (by decide) (off + 12 + val.length)
    exact ⟨by omega, hlimit, haligned, hnext ▸ dvd_align _ _⟩
  | endNode haligned hplace hlimit => exact ⟨le_rfl, hlimit, haligned, Nat.dvd_add haligned ⟨1, rfl⟩⟩
  | fin haligned hplace hlimit => exact ⟨le_rfl, hlimit, haligned, Nat.dvd_add haligned ⟨1, rfl⟩⟩

end NextTag

section Chains

variable {fdt : Fdt} {n off off' off'' : ℕ} {tag : Tag} {tags tags' : List Tag}

inductive Chain (fdt : Fdt) (n : ℕ) : ℕ → List Tag → ℕ → Prop
  | nil (off : ℕ) : Chain fdt n off [] off
  | cons {off off' off'' : ℕ} {tag : Tag} {tags : List Tag} (htag : TagAt fdt n off tag off')
      (hrest : Chain fdt n off' tags off'') : Chain fdt n off (tag :: tags) off''

theorem Chain.append (h : Chain fdt n off tags off') (h' : Chain fdt n off' tags' off'') :
    Chain fdt n off (tags ++ tags') off'' := by
  induction h with
  | nil => exact h'
  | cons htag _ ih => exact .cons htag (ih h')

theorem chain_append : Chain fdt n off (tags ++ tags') off'' ↔
    ∃ off', Chain fdt n off tags off' ∧ Chain fdt n off' tags' off'' := by
  constructor
  · intro h
    induction tags generalizing off with
    | nil => exact ⟨off, .nil off, h⟩
    | cons tag tags ih =>
      cases h with
      | cons htag hrest =>
        obtain ⟨mid, hleft, hright⟩ := ih hrest
        exact ⟨mid, .cons htag hleft, hright⟩
  · rintro ⟨off', h, h'⟩
    exact h.append h'

theorem chain_singleton : Chain fdt n off [tag] off' ↔ TagAt fdt n off tag off' := by
  constructor
  · intro h
    cases h with
    | cons htag hrest =>
      cases hrest
      exact htag
  · exact fun h => .cons h (.nil off')

end Chains

end PynqPrio.Libfdt
