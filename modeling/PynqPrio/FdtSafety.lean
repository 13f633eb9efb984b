import PynqPrio.FdtTags

/-!
# Reading a blob that nobody has checked

The walks look at every offset before they follow it. Whatever the bytes of a blob are, they stay
within it and come to an end, but for a property whose length leads back to its own tag.
-/
namespace PynqPrio.Libfdt
open Formats

/-- All of the blob is in the memory, and its offsets are of type `int` with their alignment. -/
structure Loaded (fdt : Fdt) : Prop where
  memory : fdt.totalsize ≤ fdt.bytes.length
  small : fdt.totalsize + 3 < 2 ^ 31

section Tags

variable {fdt : Fdt} {off len p : ℕ}

/-- A pointer into the structure block is the one to the offset, and all behind it is in the memory. -/
theorem fdtOffsetPtr_spec (h : Loaded fdt) (hoff : off < 2 ^ 32) (hlen : len < 2 ^ 32)
    (hp : fdtOffsetPtr fdt off len = some p) :
    p = fdt.offDtStruct + off ∧ p + len ≤ fdt.totalsize ∧ loadBytes fdt p len = .ok (slice fdt.bytes p len) := by
  have hle := fdtOffsetPtr_le hlen hp
  exact ⟨fdtOffsetPtr_eq hoff hp, hle, loadBytes_of_le (hle.trans h.memory)⟩

theorem load32_of_le (h : p + 4 ≤ fdt.bytes.length) :
    ∃ v < 2 ^ 32, load32 fdt p = .ok v ∧ HasAt fdt.bytes p (toBytes 4 v) := by
  have hbytes := toBytes_ofBytes (slice fdt.bytes p 4)
  have hlt := ofBytes_lt (slice fdt.bytes p 4)
  rw [length_slice h] at hbytes hlt
  refine ⟨_, hlt, ?_, hbytes.symm ▸ hasAt_slice h⟩
  rw [load32, loadBytes_of_le h]
  rfl

theorem load32_of_ptr (h : Loaded fdt) (hoff : off < 2 ^ 32) (hp : fdtOffsetPtr fdt off 4 = some p) :
    ∃ v < 2 ^ 32, load32 fdt p = .ok v ∧ HasAt fdt.bytes (fdt.offDtStruct + off) (toBytes 4 v) := by
  obtain ⟨rfl, hle, -⟩ := fdtOffsetPtr_spec h hoff (by decide) hp
  exact load32_of_le (hle.trans h.memory)

/-- The loop over a name comes to its end or to the end of the blob. -/
theorem skipName_outcome (h : Loaded fdt) (off fuel : ℕ) (hoff : off < 2 ^ 32) (hpos : 0 < fuel)
    (hfuel : fdt.totalsize < off + fuel) :
    ∃ r, skipName fdt fuel off = .ok r ∧ ∀ e, r = some e → ∃ k : ℕ, e = k ∧ off < k ∧ k ≤ fdt.totalsize := by
  induction fuel generalizing off with
  | zero => cases hpos
  | succ fuel ih =>
    rw [skipName]
    cases hp : fdtOffsetPtr fdt off 1 with
    | none => exact ⟨none, rfl, fun e he => by cases he⟩
    | some p =>
      obtain ⟨rfl, hle, hload⟩ := fdtOffsetPtr_spec h hoff (by decide) hp
      have hmemory := hle.trans h.memory
      have hsmall := h.small
      have hc : load8 fdt (fdt.offDtStruct + off) = .ok fdt.bytes[fdt.offDtStruct + off] := by
        rw [load8, List.getElem?_eq_getElem hmemory]
        rfl
      dsimp only
      rw [hc, ok_bind]
      split
      · exact ⟨_, rfl, fun e he => ⟨off + 1, (Option.some.inj he).symm, Nat.lt_succ_self off, by omega⟩⟩
      · obtain ⟨r, hr, hend⟩ := ih (off + 1) (by omega) (by omega) (by omega)
        refine ⟨r, hr, fun e he => ?_⟩
        obtain ⟨k, hk, hlt, hkle⟩ := hend e he
        exact ⟨k, hk, Nat.lt_of_succ_lt hlt, hkle⟩

/-- A property whose end is behind what the offsets can count, so that it comes to lie in front. -/
def Overlong (fdt : Fdt) (off : ℕ) : Prop :=
  ∃ len, 2 ^ 32 - 12 ≤ len ∧ len < 2 ^ 32 ∧
    HasAt fdt.bytes (fdt.offDtStruct + off) (toBytes 4 fdtProp ++ toBytes 4 len)

/-- A tag of the blob with the one behind it. -/
structure Passed (fdt : Fdt) (off tag off' : ℕ) : Prop where
  next : off + 4 ≤ off'
  limit : off' ≤ fdt.totalsize + 3
  aligned : 4 ∣ off'
  code : HasAt fdt.bytes (fdt.offDtStruct + off) (toBytes 4 tag)
  prop : tag = fdtProp → ∃ len, load32 fdt (fdt.offDtStruct + off + 4) = .ok len ∧
    fdt.offDtStruct + off + 12 + len ≤ fdt.totalsize

/-- What a tag stands in front of has its end in the blob, or the length of a property is added. -/
theorem tagEnd_outcome (h : Loaded fdt) (hoff : off ≤ fdt.totalsize + 3) {tag : ℕ}
    (hplace : HasAt fdt.bytes (fdt.offDtStruct + off) (toBytes 4 tag))
    (hle : fdt.offDtStruct + off + 4 ≤ fdt.totalsize) :
    ∃ r, tagEnd fdt tag ((off : ℤ) + 4) = .ok r ∧ ∀ e, r = some e →
      tag ≠ fdtProp ∧ (∃ k : ℕ, e = k ∧ off + 4 ≤ k ∧ k ≤ fdt.totalsize) ∨
      tag = fdtProp ∧ ∃ len, len < 2 ^ 32 ∧ load32 fdt (fdt.offDtStruct + off + 4) = .ok len ∧
        HasAt fdt.bytes (fdt.offDtStruct + off) (toBytes 4 fdtProp ++ toBytes 4 len) ∧
        e = int32 ((off + 12 + len : ℕ) : ℤ) := by
  have hsmall := h.small
  have hstart : ((off : ℤ) + 4) = ((off + 4 : ℕ) : ℤ) := rfl
  rw [tagEnd, hstart]
  split
  · next hbegin =>
    obtain ⟨r, hr, hend⟩ := skipName_outcome h (off + 4) (fdt.totalsize + 1) (by omega) (Nat.succ_pos _)
      (by omega)
    refine ⟨r, hr, fun e he => .inl ⟨hbegin ▸ by decide, ?_⟩⟩
    obtain ⟨k, rfl, hlt, hkle⟩ := hend e he
    exact ⟨k, rfl, hlt.le, hkle⟩
  · split
    · next hprop =>
      subst hprop
      cases hp : fdtOffsetPtr fdt ((off + 4 : ℕ) : ℤ) 4 with
      | none => exact ⟨none, rfl, fun e he => by cases he⟩
      | some p =>
        obtain ⟨len, hlen, hload, hlenAt⟩ := load32_of_ptr h (by omega) hp
        obtain ⟨rfl, -, -⟩ := fdtOffsetPtr_spec h (by omega) (by decide) hp
        have hboth := hasAt_append.mpr ⟨hplace, by rw [length_toBytes]; exact hlenAt⟩
        have hsum : ((off + 4 : ℕ) : ℤ) + 8 + (len : ℕ) = ((off + 12 + len : ℕ) : ℤ) := by omega
        dsimp only
        rw [hload, ok_bind, hsum]
        exact ⟨_, rfl, fun e he => .inr ⟨rfl, len, hlen, hload, hboth, (Option.some.inj he).symm⟩⟩
    · next hprop =>
      split
      · exact ⟨_, rfl, fun e he => .inl ⟨hprop, off + 4, (Option.some.inj he).symm, le_rfl, by omega⟩⟩
      · exact ⟨none, rfl, fun e he => by cases he⟩

theorem u32_int32_sub (x y : ℤ) : u32 (int32 x - y) = u32 (x - y) := by
  rw [u32, u32, int32, Int.bmod_def]
  split <;> omega

/-- An offset has no tag, or a tag with the next one behind it. -/
theorem fdtNextTag_outcome (h : Loaded fdt) (hoff : off ≤ fdt.totalsize + 3) (hfine : ¬Overlong fdt off) :
    (∃ err < 0, fdtNextTag fdt off = .ok (fdtEnd, err)) ∨
      ∃ tag off', fdtNextTag fdt off = .ok (tag, (off' : ℕ)) ∧ Passed fdt off tag off' := by
  have hsmall := h.small
  rw [fdtNextTag]
  cases hp : fdtOffsetPtr fdt off 4 with
  | none => exact .inl ⟨-errTruncated, by decide, rfl⟩
  | some p =>
    obtain ⟨tag, htag, hload, hplace⟩ := load32_of_ptr h (by omega) hp
    obtain ⟨rfl, hle, -⟩ := fdtOffsetPtr_spec h (by omega) (by decide) hp
    obtain ⟨r, hr, hend⟩ := tagEnd_outcome h hoff hplace hle
    dsimp only
    rw [hload, ok_bind, hr, ok_bind]
    cases r with
    | none => exact .inl ⟨-errBadstructure, by decide, rfl⟩
    | some e =>
      cases hcheck : fdtOffsetPtr fdt off (u32 (e - off)) with
      | none =>
        dsimp only
        rw [hcheck]
        exact .inl ⟨-errBadstructure, by decide, rfl⟩
      | some q =>
        have hlen : u32 (e - off) < 2 ^ 32 := by
          rw [u32]
          omega
        obtain ⟨rfl, hqle, -⟩ := fdtOffsetPtr_spec h (by omega) hlen hcheck
        obtain ⟨k, hk, hlo, hhi, hprop⟩ : ∃ k : ℕ, e = k ∧ off + 4 ≤ k ∧ k ≤ fdt.totalsize ∧
            (tag = fdtProp → ∃ len, load32 fdt (fdt.offDtStruct + off + 4) = .ok len ∧
              fdt.offDtStruct + off + 12 + len ≤ fdt.totalsize) := by
          obtain ⟨hprop, k, hk, hlo, hhi⟩ | ⟨-, len, hlenLt, hlenAt, hboth, he⟩ := hend e rfl
          · exact ⟨k, hk, hlo, hhi, fun h => absurd h hprop⟩
          · have hshort : len < 2 ^ 32 - 12 := Nat.lt_of_not_le fun hlong => hfine ⟨len, hlong, hlenLt, hboth⟩
            have hdiff : u32 (e - off) = 12 + len := by
              rw [he, u32_int32_sub, u32]
              omega
            rw [hdiff] at hqle
            refine ⟨off + 12 + len, ?_, by omega, by omega, fun _ => ⟨len, hlenAt, by omega⟩⟩
            rw [he, int32_natCast (by omega)]
        have halign := le_align (a := 4) (by decide) k
        have hlt := align_lt (a := 4) (by decide) k
        have hint : int32 ((align k 4 : ℕ) : ℤ) = (align k 4 : ℕ) := int32_natCast (by omega)
        refine .inr ⟨tag, align k 4, ?_, by omega, by omega, dvd_align k 4, hplace, hprop⟩
        dsimp only
        rw [hcheck, hk, Int.toNat_natCast, hint]
        rfl

/-- Where a walk over the tags that begins at the root comes to. -/
inductive Stands (fdt : Fdt) : ℕ → Prop
  | start : Stands fdt 0
  | next {off tag off' : ℕ} (hstands : Stands fdt off) (hnext : fdtNextTag fdt off = .ok (tag, (off' : ℤ)))
      (htag : tag ≠ fdtEnd) : Stands fdt off'

/-- What a walk comes to is aligned and no further than the blob. -/
theorem Stands.bounds (h : Loaded fdt) (hfine : ∀ off, Stands fdt off → ¬Overlong fdt off)
    (hstands : Stands fdt off) : 4 ∣ off ∧ off ≤ fdt.totalsize + 3 := by
  induction hstands with
  | start => exact ⟨Nat.dvd_zero 4, Nat.zero_le _⟩
  | next hstands hnext _ ih =>
    obtain ⟨err, herr, hend⟩ | ⟨tag, off', hend, hpassed⟩ := fdtNextTag_outcome h ih.2 (hfine _ hstands)
    · obtain ⟨-, hneg⟩ := Prod.mk.inj (Except.ok.inj (hnext.symm.trans hend))
      omega
    · obtain ⟨-, heq⟩ := Prod.mk.inj (Except.ok.inj (hnext.symm.trans hend))
      obtain rfl := Int.ofNat.inj heq
      exact ⟨hpassed.aligned, hpassed.limit⟩

theorem Stands.outcome (h : Loaded fdt) (hfine : ∀ off, Stands fdt off → ¬Overlong fdt off)
    (hstands : Stands fdt off) : (∃ err < 0, fdtNextTag fdt off = .ok (fdtEnd, err)) ∨
      ∃ tag off', fdtNextTag fdt off = .ok (tag, (off' : ℕ)) ∧ Passed fdt off tag off' :=
  fdtNextTag_outcome h (hstands.bounds h hfine).2 (hfine off hstands)

theorem fdtCheckOffset_outcome (h : Loaded fdt) (hfine : ∀ off, Stands fdt off → ¬Overlong fdt off) {tag : ℕ}
    (htag : tag ≠ fdtEnd) (hstands : Stands fdt off) : (∃ err < 0, fdtCheckOffset fdt tag off = .ok err) ∨
      ∃ off', fdtCheckOffset fdt tag off = .ok (off' : ℕ) ∧ off + 4 ≤ off' ∧ Stands fdt off' := by
  rw [fdtCheckOffset]
  split
  · exact .inl ⟨-errBadoffset, by decide, rfl⟩
  · obtain ⟨err, herr, hnext⟩ | ⟨found, off', hnext, hpassed⟩ := hstands.outcome h hfine
    · rw [hnext, ok_bind]
      exact .inl ⟨-errBadoffset, by decide, congrArg Except.ok (if_neg htag.symm)⟩
    · rw [hnext, ok_bind]
      by_cases hfound : found = tag
      · subst hfound
        exact .inr ⟨off', congrArg Except.ok (if_pos rfl), hpassed.next, hstands.next hnext htag⟩
      · exact .inl ⟨-errBadoffset, by decide, congrArg Except.ok (if_neg hfound)⟩

end Tags

section Nodes

variable {fdt : Fdt} {off fuel : ℕ}

/-- The walk comes to the tag of a node at the offset. -/
def IsNode (fdt : Fdt) (off : ℕ) : Prop :=
  Stands fdt off ∧ ∃ off' : ℕ, fdtNextTag fdt off = .ok (fdtBeginNode, (off' : ℤ)) ∧ Passed fdt off fdtBeginNode off'

theorem IsNode.le (hnode : IsNode fdt off) : off ≤ fdt.totalsize + 3 := by
  obtain ⟨-, off', -, hpassed⟩ := hnode
  have hnext := hpassed.next
  have hlimit := hpassed.limit
  omega

/-- Where a walk over nodes comes to: an error, the end of what it walks over where it counts how
deep it is, or a node. -/
def Comes (fdt : Fdt) (off : ℕ) (depth : Option ℤ) (r : ℤ × Option ℤ) : Prop :=
  r.1 < 0 ∨ depth.isSome ∧ (∃ d < 0, r.2 = some d) ∨ ∃ k : ℕ, r.1 = k ∧ off ≤ k ∧ IsNode fdt k

theorem Comes.mono {depth : Option ℤ} {r : ℤ × Option ℤ} {off' : ℕ} (hcomes : Comes fdt off' depth r)
    (hle : off ≤ off') : Comes fdt off depth r := by
  obtain herr | hend | ⟨k, hk, hlo, hnode⟩ := hcomes
  · exact .inl herr
  · exact .inr (.inl hend)
  · exact .inr (.inr ⟨k, hk, hle.trans hlo, hnode⟩)

/-- The walk comes to an end, as every tag takes four bytes. -/
theorem nextNodeLoop_outcome (h : Loaded fdt) (hfine : ∀ off, Stands fdt off → ¬Overlong fdt off) (fuel : ℕ)
    (hstands : Stands fdt off) (depth : Option ℤ) (hfuel : fdt.totalsize + 3 < off + 4 * fuel) :
    ∃ r, nextNodeLoop fdt fuel off depth = .ok r ∧ Comes fdt off depth r := by
  induction fuel generalizing off depth with
  | zero =>
    have hoff := (hstands.bounds h hfine).2
    omega
  | succ fuel ih =>
    rw [nextNodeLoop]
    obtain ⟨err, herr, hnext⟩ | ⟨tag, off', hnext, hpassed⟩ := hstands.outcome h hfine
    · rw [hnext, ok_bind]
      dsimp only
      rw [if_neg (by decide), if_neg (by decide), if_pos rfl]
      split
      · exact ⟨(-errNotfound, depth), rfl, .inl (show -errNotfound < 0 by decide)⟩
      · exact ⟨_, rfl, .inl herr⟩
    · have hlo := hpassed.next
      have hgo : tag ≠ fdtEnd → ∀ depth, ∃ r, nextNodeLoop fdt fuel off' depth = .ok r ∧ Comes fdt off depth r := by
        intro htag depth
        obtain ⟨r, hr, hcomes⟩ := ih (hstands.next hnext htag) depth (by omega)
        exact ⟨r, hr, hcomes.mono (by omega)⟩
      rw [hnext, ok_bind]
      dsimp only
      split
      · next hbegin =>
        subst hbegin
        exact ⟨_, rfl, .inr (.inr ⟨off, rfl, le_rfl, hstands, off', hnext, hpassed⟩)⟩
      · split
        · next hclose =>
          have htag : tag ≠ fdtEnd := hclose ▸ by decide
          cases depth with
          | none => exact hgo htag none
          | some d =>
            dsimp only
            split
            · next hd => exact ⟨_, rfl, .inr (.inl ⟨rfl, d - 1, hd, rfl⟩)⟩
            · exact hgo htag (some (d - 1))
        · split
          · split
            · exact ⟨(-errNotfound, depth), rfl, .inl (show -errNotfound < 0 by decide)⟩
            · next hneg => exact ⟨_, rfl, .inl (by omega)⟩
          · next htag => exact hgo htag depth

theorem enough_of_loaded (h : Loaded fdt) : fdt.totalsize + 7 < 4 * fdt.fuel := by
  have hmemory := h.memory
  have hheader := fdt.header
  rw [Fdt.fuel]
  omega

/-- The next node is behind the one that the walk starts from. -/
theorem fdtNextNode_outcome (h : Loaded fdt) (hfine : ∀ off, Stands fdt off → ¬Overlong fdt off)
    (hstands : Stands fdt off) (depth : Option ℤ) :
    ∃ r, fdtNextNode fdt off depth = .ok r ∧ Comes fdt (off + 4) depth r := by
  have hfuel := enough_of_loaded h
  rw [fdtNextNode, if_pos (Int.natCast_nonneg off), fdtCheckNodeOffset]
  obtain ⟨err, herr, hcheck⟩ | ⟨off', hcheck, hlo, hbehind⟩ :=
    fdtCheckOffset_outcome h hfine (show fdtBeginNode ≠ fdtEnd by decide) hstands
  · rw [hcheck, ok_bind, if_pos herr]
    exact ⟨_, rfl, .inl herr⟩
  · rw [hcheck, ok_bind, if_neg (Int.not_lt.mpr (Int.natCast_nonneg off'))]
    obtain ⟨r, hr, hcomes⟩ := nextNodeLoop_outcome h hfine fdt.fuel hbehind depth (by omega)
    exact ⟨r, hr, hcomes.mono hlo⟩

theorem nodenameEq_outcome (h : Loaded fdt) (hoff : off ≤ fdt.totalsize + 3) {s : List Byte}
    (hs : s.length < 2 ^ 31) : ∃ found, nodenameEq fdt off s = .ok found := by
  have hsmall := h.small
  rw [nodenameEq, show ((off : ℤ) + 4) = ((off + 4 : ℕ) : ℤ) from rfl]
  cases hp : fdtOffsetPtr fdt ((off + 4 : ℕ) : ℤ) (s.length + 1) with
  | none => exact ⟨false, rfl⟩
  | some p =>
    obtain ⟨-, -, hload⟩ := fdtOffsetPtr_spec h (by omega) (by omega) hp
    dsimp only
    rw [hload, ok_bind]
    split <;> exact ⟨_, rfl⟩

/-- A result of type `int` is an error or the offset of a node. -/
def Found (fdt : Fdt) (r : ℤ) : Prop := r < 0 ∨ ∃ k : ℕ, r = k ∧ IsNode fdt k

/-- A search among the children ends with a node behind where it began, or with an error. -/
theorem subnodeLoop_outcome (h : Loaded fdt) (hfine : ∀ off, Stands fdt off → ¬Overlong fdt off) (fuel : ℕ)
    {s : List Byte} (hs : s.length < 2 ^ 31) (hstands : Stands fdt off) (depth : ℤ)
    (hfuel : fdt.totalsize + 7 < off + 4 * fuel) :
    ∃ r, subnodeLoop fdt s fuel off depth = .ok r ∧ (depth ≠ 1 ∨ IsNode fdt off → Found fdt r) := by
  have hoff := (hstands.bounds h hfine).2
  induction fuel generalizing off depth with
  | zero => omega
  | succ fuel ih =>
    rw [subnodeLoop]
    split
    · obtain ⟨found, hfound, hhere⟩ : ∃ found,
          (if depth = 1 then nodenameEq fdt off s else pure false) = .ok found ∧ (found → depth = 1) := by
        split
        · next hone =>
          obtain ⟨found, hfound⟩ := nodenameEq_outcome h hoff hs
          exact ⟨found, hfound, fun _ => hone⟩
        · exact ⟨false, rfl, nofun⟩
      rw [hfound, ok_bind]
      split
      · next htrue => exact ⟨_, rfl, fun hstart => .inr ⟨off, rfl, hstart.resolve_left (not_not.mpr (hhere htrue))⟩⟩
      · obtain ⟨⟨next, depth'⟩, hnext, hcomes⟩ := fdtNextNode_outcome h hfine hstands (some depth)
        rw [hnext, ok_bind]
        dsimp only
        obtain ⟨fuel, rfl⟩ := Nat.exists_eq_succ_of_ne_zero (n := fuel) (by omega)
        obtain herr | ⟨-, d, hd, rfl⟩ | ⟨k, rfl, hlo, hnode⟩ := hcomes
        · refine ⟨_, by rw [subnodeLoop, if_neg fun hgo => Int.not_lt.mpr hgo.1 herr]; rfl, fun _ => .inl ?_⟩
          split
          · decide
          · exact herr
        · refine ⟨_, by rw [subnodeLoop, if_neg fun hgo => Int.not_lt.mpr hgo.2 hd]; rfl, fun _ => .inl ?_⟩
          rw [Option.getD_some, if_pos hd]
          decide
        · obtain ⟨r, hr, hfound⟩ := ih hnode.1 (depth'.getD depth) (by omega) hnode.le
          exact ⟨r, hr, fun _ => hfound (.inr hnode)⟩
    · next hstop => exact ⟨_, rfl, fun _ => .inl (by split <;> [decide; omega])⟩

theorem fdtCheckHeader_le (fdt : Fdt) : fdtCheckHeader fdt ≤ 0 := by
  rw [fdtCheckHeader]
  split <;> split <;> (try split) <;> decide

theorem fdtSubnodeOffset_outcome (h : Loaded fdt) (hfine : ∀ off, Stands fdt off → ¬Overlong fdt off) {s : List Byte}
    (hs : s.length < 2 ^ 31) (hstands : Stands fdt off) :
    ∃ r, fdtSubnodeOffsetNamelen fdt off s = .ok r ∧ Found fdt r := by
  have hfuel := enough_of_loaded h
  have hle := fdtCheckHeader_le fdt
  rw [fdtSubnodeOffsetNamelen]
  split
  · exact ⟨_, rfl, .inl (by omega)⟩
  · obtain ⟨r, hr, hfound⟩ := subnodeLoop_outcome h hfine fdt.fuel hs hstands 0 (by omega)
    exact ⟨r, hr, hfound (.inl (by decide))⟩

/-- A path leads to a node or to an error, or it has no names and leads nowhere. -/
theorem pathLoop_outcome (h : Loaded fdt) (hfine : ∀ off, Stands fdt off → ¬Overlong fdt off) {path : List Byte}
    (hpath : path.length < 2 ^ 31) (hstands : Stands fdt off) (hfuel : path.length < fuel) :
    ∃ r, pathLoop fdt fuel path off = .ok r ∧ (r = off ∨ Found fdt r) := by
  induction fuel generalizing path off with
  | zero => omega
  | succ fuel ih =>
    have hdrop := (List.dropWhile_suffix (· = 0x2F#8) (l := path)).length_le
    rw [pathLoop]
    cases hp : path.dropWhile (· = 0x2F#8) with
    | nil => exact ⟨off, rfl, .inl rfl⟩
    | cons b rest =>
      rw [hp] at hdrop
      have hb : b ≠ 0x2F#8 := by
        have hhead := List.head_dropWhile_not (· = 0x2F#8) (l := path) (by rw [hp]; exact List.cons_ne_nil _ _)
        simpa only [hp, List.head_cons, decide_eq_false_iff_not] using hhead
      have hname := (List.takeWhile_prefix (· ≠ 0x2F#8) (l := b :: rest)).length_le
      have htail : ((b :: rest).dropWhile (· ≠ 0x2F#8)).length ≤ rest.length := by
        rw [List.dropWhile_cons_of_pos (by simpa using hb)]
        exact (List.dropWhile_suffix _).length_le
      rw [List.length_cons] at hdrop hname
      rw [if_neg (List.cons_ne_nil b rest)]
      generalize (b :: rest).takeWhile (· ≠ 0x2F#8) = s at *
      generalize (b :: rest).dropWhile (· ≠ 0x2F#8) = tail at *
      obtain ⟨r, hr, hfound⟩ := fdtSubnodeOffset_outcome h hfine (s := s) (by omega) hstands
      rw [hr, ok_bind]
      split
      · next hneg => exact ⟨r, rfl, .inr (.inl hneg)⟩
      · next hpos =>
        obtain hneg | ⟨k, rfl, hnode⟩ := hfound
        · exact absurd hneg hpos
        · obtain ⟨r, hr, hlast⟩ := ih (show tail.length < 2 ^ 31 by omega) hnode.1 (by omega)
          refine ⟨r, hr, .inr ?_⟩
          obtain rfl | hlast := hlast
          · exact .inr ⟨k, rfl, hnode⟩
          · exact hlast

end Nodes

section Properties

variable {fdt : Fdt} {off fuel : ℕ} {s : List Byte}

def IsProp (fdt : Fdt) (off : ℕ) : Prop :=
  Stands fdt off ∧ ∃ off' : ℕ, fdtNextTag fdt off = .ok (fdtProp, (off' : ℤ)) ∧ Passed fdt off fdtProp off'

theorem IsProp.lt (hprop : IsProp fdt off) : off < fdt.totalsize + 3 := by
  obtain ⟨-, off', -, hpassed⟩ := hprop
  have hnext := hpassed.next
  have hlimit := hpassed.limit
  omega

/-- The name offset of every property leads to a string. -/
def Named (fdt : Fdt) : Prop :=
  ∀ off, IsProp fdt off → ∀ nameoff, load32 fdt (fdt.offDtStruct + off + 8) = .ok nameoff →
    ∃ (p : ℕ) (str : CString), fdtString fdt (int32 nameoff) = p ∧ HasAt fdt.bytes p str.bytes

/-- The next property is behind what is in front of it, or there is none. -/
theorem nextpropLoop_outcome (h : Loaded fdt) (hfine : ∀ off, Stands fdt off → ¬Overlong fdt off) (fuel : ℕ)
    (hstands : Stands fdt off) (hfuel : fdt.totalsize + 3 < off + 4 * fuel) :
    ∃ r, nextpropLoop fdt fuel off = .ok r ∧ (r < 0 ∨ ∃ k : ℕ, r = k ∧ off ≤ k ∧ IsProp fdt k) := by
  induction fuel generalizing off with
  | zero =>
    have hoff := (hstands.bounds h hfine).2
    omega
  | succ fuel ih =>
    rw [nextpropLoop]
    obtain ⟨err, herr, hnext⟩ | ⟨tag, off', hnext, hpassed⟩ := hstands.outcome h hfine
    · rw [hnext, ok_bind]
      dsimp only
      rw [if_pos rfl, if_neg (Int.not_le.mpr herr)]
      exact ⟨err, rfl, .inl herr⟩
    · have hlo := hpassed.next
      rw [hnext, ok_bind]
      dsimp only
      rw [if_pos (Int.natCast_nonneg off')]
      split
      · exact ⟨_, rfl, .inl (by decide)⟩
      · next htag =>
        split
        · next hprop =>
          subst hprop
          exact ⟨off, rfl, .inr ⟨off, rfl, le_rfl, hstands, off', hnext, hpassed⟩⟩
        · split
          · obtain ⟨r, hr, hend⟩ := ih (hstands.next hnext htag) (by omega)
            refine ⟨r, hr, hend.imp_right fun ⟨k, hk, hle, hprop⟩ => ⟨k, hk, by omega, hprop⟩⟩
          · exact ⟨_, rfl, .inl (by decide)⟩

/-- `fdt_first_property_offset` and `fdt_next_property_offset`. -/
theorem nextprop_outcome (h : Loaded fdt) (hfine : ∀ off, Stands fdt off → ¬Overlong fdt off) {tag : ℕ}
    (htag : tag ≠ fdtEnd) (hstands : Stands fdt off) : ∃ r,
      (do let offset ← fdtCheckOffset fdt tag off
          if offset < 0 then pure offset else nextprop fdt offset) = Except.ok r ∧
        (r < 0 ∨ ∃ k : ℕ, r = k ∧ off + 4 ≤ k ∧ IsProp fdt k) := by
  have hfuel := enough_of_loaded h
  obtain ⟨err, herr, hcheck⟩ | ⟨off', hcheck, hlo, hbehind⟩ := fdtCheckOffset_outcome h hfine htag hstands
  · rw [hcheck, ok_bind, if_pos herr]
    exact ⟨err, rfl, .inl herr⟩
  · rw [hcheck, ok_bind, if_neg (Int.not_lt.mpr (Int.natCast_nonneg off')), nextprop]
    obtain ⟨r, hr, hend⟩ := nextpropLoop_outcome h hfine fdt.fuel hbehind (by omega)
    exact ⟨r, hr, hend.imp_right fun ⟨k, hk, hle, hprop⟩ => ⟨k, hk, by omega, hprop⟩⟩

/-- The header of a property is in the blob, and so are its value and the string for its name. -/
theorem fdtGetPropertyByOffset_outcome (h : Loaded fdt) (hfine : ∀ off, Stands fdt off → ¬Overlong fdt off)
    (hnamed : Named fdt) (hprop : IsProp fdt off) :
    ∃ len nameoff, fdtGetPropertyByOffset fdt off = .ok (.ok ⟨off, len, nameoff⟩) ∧
      load32 fdt (fdt.offDtStruct + off + 4) = .ok len ∧ fdt.offDtStruct + off + 12 + len ≤ fdt.totalsize ∧
        load32 fdt (fdt.offDtStruct + off + 8) = .ok nameoff ∧
          ∀ s, ∃ eq, fdtStringEq fdt (int32 nameoff) s = .ok eq := by
  have haligned := (hprop.1.bounds h hfine).1
  obtain ⟨-, off', hnext, hpassed⟩ := id hprop
  have hcheck : fdtCheckPropOffset fdt off = .ok (off' : ℤ) := by
    rw [fdtCheckPropOffset, fdtCheckOffset, if_neg (by omega), hnext, ok_bind]
    exact congrArg Except.ok (if_pos rfl)
  obtain ⟨len, hlen, hle⟩ := hpassed.prop rfl
  have hmemory := hle.trans h.memory
  have habs : ((off : ℤ) + (fdt.offDtStruct : ℕ)).toNat = fdt.offDtStruct + off := by
    rw [← Int.natCast_add, Int.toNat_natCast, Nat.add_comm]
  obtain ⟨nameoff, -, hload, -⟩ := load32_of_le (show fdt.offDtStruct + off + 8 + 4 ≤ fdt.bytes.length by omega)
  obtain ⟨p, str, hp, hstr⟩ := hnamed off hprop nameoff hload
  refine ⟨len, nameoff, ?_, hlen, hle, hload, fun s => ?_⟩
  · rw [fdtGetPropertyByOffset, hcheck, ok_bind, if_neg (Int.not_lt.mpr (Int.natCast_nonneg off')), habs]
    dsimp only
    rw [hlen, ok_bind, hload, ok_bind]
    rfl
  · rw [fdtStringEq, hp, if_neg (Int.not_lt.mpr (Int.natCast_nonneg p)), Int.toNat_natCast,
      loadString_of_hasAt hstr]
    exact ⟨_, rfl⟩

/-- A property of that name with its value in the blob. -/
structure NamedProp (fdt : Fdt) (s : List Byte) (off len : ℕ) : Prop where
  prop : IsProp fdt off
  name : ∃ nameoff, load32 fdt (fdt.offDtStruct + off + 8) = .ok nameoff ∧
    fdtStringEq fdt (int32 nameoff) s = .ok true
  length : load32 fdt (fdt.offDtStruct + off + 4) = .ok len
  limit : fdt.offDtStruct + off + 12 + len ≤ fdt.totalsize

/-- What is looked up in the properties of a node is an error or in the blob. -/
def InBlob (fdt : Fdt) (s : List Byte) (res : Except ℤ PropertyPtr) : Prop :=
  match res with
  | .error err => err < 0
  | .ok prop => ∃ off : ℕ, prop.offset = off ∧ NamedProp fdt s off prop.len

theorem getPropertyLoop_outcome (h : Loaded fdt) (hfine : ∀ off, Stands fdt off → ¬Overlong fdt off)
    (hnamed : Named fdt) (hprop : IsProp fdt off) (hfuel : fdt.totalsize + 7 < off + 4 * fuel) :
    ∃ res, getPropertyLoop fdt s fuel off = .ok res ∧ InBlob fdt s res := by
  have hlt := hprop.lt
  induction fuel generalizing off with
  | zero => omega
  | succ fuel ih =>
    obtain ⟨len, nameoff, hget, hlen, hle, hload, heq⟩ := fdtGetPropertyByOffset_outcome h hfine hnamed hprop
    obtain ⟨eq, heq⟩ := heq s
    rw [getPropertyLoop, if_neg (Int.not_lt.mpr (Int.natCast_nonneg off)), hget, ok_bind]
    dsimp only
    rw [heq, ok_bind]
    split
    · next htrue =>
      subst htrue
      exact ⟨_, rfl, off, rfl, hprop, ⟨nameoff, hload, heq⟩, hlen, hle⟩
    · obtain ⟨r, hr, hend⟩ := nextprop_outcome h hfine (show fdtProp ≠ fdtEnd by decide) hprop.1
      rw [fdtNextPropertyOffset, fdtCheckPropOffset, hr, ok_bind]
      obtain hneg | ⟨k, rfl, hlo, hnext⟩ := hend
      · obtain ⟨fuel, rfl⟩ := Nat.exists_eq_succ_of_ne_zero (n := fuel) (by omega)
        rw [getPropertyLoop, if_pos hneg]
        exact ⟨_, rfl, hneg⟩
      · exact ih hnext (by omega) hnext.lt

theorem fdtGetProperty_outcome (h : Loaded fdt) (hfine : ∀ off, Stands fdt off → ¬Overlong fdt off)
    (hnamed : Named fdt) (hstands : Stands fdt off) (s : List Byte) :
    ∃ res, fdtGetPropertyNamelen fdt off s = .ok res ∧ InBlob fdt s res := by
  have hfuel := enough_of_loaded h
  obtain ⟨r, hr, hend⟩ := nextprop_outcome h hfine (show fdtBeginNode ≠ fdtEnd by decide) hstands
  rw [fdtGetPropertyNamelen, fdtFirstPropertyOffset, fdtCheckNodeOffset, hr, ok_bind]
  obtain hneg | ⟨k, rfl, -, hprop⟩ := hend
  · refine ⟨.error r, ?_, hneg⟩
    rw [Fdt.fuel, getPropertyLoop, if_pos hneg]
    rfl
  · exact getPropertyLoop_outcome h hfine hnamed hprop (by omega)

theorem fdtGetprop_outcome (h : Loaded fdt) (hfine : ∀ off, Stands fdt off → ¬Overlong fdt off)
    (hnamed : Named fdt) (hstands : Stands fdt off) (s : List Byte) :
    (∃ err < 0, fdtGetpropNamelen fdt off s = .ok (.error err)) ∨
      ∃ k len, fdtGetpropNamelen fdt off s = .ok (.ok (fdt.offDtStruct + k + 12, len)) ∧ NamedProp fdt s k len := by
  obtain ⟨res, hres, hblob⟩ := fdtGetProperty_outcome h hfine hnamed hstands s
  rw [fdtGetpropNamelen, hres, ok_bind]
  cases res with
  | error err => exact .inl ⟨err, hblob, rfl⟩
  | ok prop =>
    obtain ⟨k, hk, hholds⟩ := hblob
    have hdata : prop.data fdt = fdt.offDtStruct + k + 12 := by
      rw [PropertyPtr.data, hk, ← Int.natCast_add, Int.toNat_natCast, Nat.add_comm k]
    exact .inr ⟨k, prop.len, hdata ▸ rfl, hholds⟩

theorem getCell_outcome (h : Loaded fdt) (hfine : ∀ off, Stands fdt off → ¬Overlong fdt off)
    (hnamed : Named fdt) (hstands : Stands fdt off) (name : CString) :
    ∃ cell, getCell fdt off name = .ok cell := by
  rw [getCell, fdtGetprop]
  obtain ⟨err, -, hget⟩ | ⟨k, len, hget, hholds⟩ := fdtGetprop_outcome h hfine hnamed hstands name.chars
  · rw [hget]
    exact ⟨none, rfl⟩
  · rw [hget, ok_bind]
    dsimp only
    split
    · exact ⟨none, rfl⟩
    · next hlen =>
      have hle := hholds.limit.trans h.memory
      obtain ⟨v, -, hload, -⟩ := load32_of_le (show fdt.offDtStruct + k + 12 + 4 ≤ fdt.bytes.length by omega)
      rw [hload]
      exact ⟨some v, rfl⟩

theorem fdtGetPhandle_outcome (h : Loaded fdt) (hfine : ∀ off, Stands fdt off → ¬Overlong fdt off)
    (hnamed : Named fdt) (hstands : Stands fdt off) : ∃ phandle, fdtGetPhandle fdt off = .ok phandle := by
  obtain ⟨cell, hcell⟩ := getCell_outcome h hfine hnamed hstands phandleString
  obtain ⟨cell', hcell'⟩ := getCell_outcome h hfine hnamed hstands linuxPhandleString
  rw [fdtGetPhandle, hcell, ok_bind]
  cases cell with
  | some phandle => exact ⟨phandle, rfl⟩
  | none =>
    dsimp only
    rw [hcell', ok_bind]
    cases cell' with
    | some phandle => exact ⟨phandle, rfl⟩
    | none => exact ⟨0, rfl⟩

theorem byPhandleLoop_outcome (h : Loaded fdt) (hfine : ∀ off, Stands fdt off → ¬Overlong fdt off)
    (hnamed : Named fdt) (phandle fuel : ℕ) (hnode : IsNode fdt off)
    (hfuel : fdt.totalsize + 7 < off + 4 * fuel) :
    ∃ r, byPhandleLoop fdt phandle fuel off = .ok r ∧ Found fdt r := by
  induction fuel generalizing off with
  | zero =>
    have hle := hnode.le
    omega
  | succ fuel ih =>
    obtain ⟨found, hfound⟩ := fdtGetPhandle_outcome h hfine hnamed hnode.1
    rw [byPhandleLoop, if_neg (Int.not_lt.mpr (Int.natCast_nonneg off)), hfound, ok_bind]
    split
    · exact ⟨_, rfl, .inr ⟨off, rfl, hnode⟩⟩
    · obtain ⟨⟨next, depth⟩, hnext, hcomes⟩ := fdtNextNode_outcome h hfine hnode.1 none
      rw [hnext, ok_bind]
      dsimp only
      obtain herr | ⟨hcounted, -⟩ | ⟨k, rfl, hlo, hnode⟩ := hcomes
      · obtain ⟨fuel, rfl⟩ := Nat.exists_eq_succ_of_ne_zero (n := fuel) (by have := hnode.le; omega)
        rw [byPhandleLoop, if_pos herr]
        exact ⟨_, rfl, .inl herr⟩
      · cases hcounted
      · exact ih hnode (by omega)

end Properties

section Runs

variable {fdt : Fdt} {path name : CString}

/-- A blob that nobody has checked: to read a property by path and name ends, and what is read is the
value of a property of that name in the blob. -/
theorem readProp_outcome (h : Loaded fdt) (hfine : ∀ off, Stands fdt off → ¬Overlong fdt off) (hnamed : Named fdt)
    (habsolute : path.chars.head? = some 0x2F#8) (hpath : path.chars.length < 2 ^ 31) (fuel : ℕ) :
    (∃ err < 0, readProp fdt (fuel + 1) path name = .ok (.error err)) ∨
      ∃ off len, NamedProp fdt name.chars off len ∧
        readProp fdt (fuel + 1) path name = .ok (.ok (slice fdt.bytes (fdt.offDtStruct + off + 12) len)) := by
  have hle := fdtCheckHeader_le fdt
  obtain ⟨r, hr, hfound⟩ : ∃ r, fdtPathOffset fdt (fuel + 1) path = .ok r ∧
      (r < 0 ∨ ∃ k : ℕ, r = k ∧ Stands fdt k) := by
    rw [fdtPathOffset, fdtPathOffsetNamelen]
    by_cases hheader : fdtCheckHeader fdt = 0
    · obtain ⟨r, hr, hfound⟩ := pathLoop_outcome h hfine hpath .start (Nat.lt_succ_self _)
      rw [if_neg (not_not.mpr hheader), if_pos habsolute]
      refine ⟨r, hr, ?_⟩
      obtain rfl | hneg | ⟨k, rfl, hnode⟩ := hfound
      · exact .inr ⟨0, rfl, .start⟩
      · exact .inl hneg
      · exact .inr ⟨k, rfl, hnode.1⟩
    · rw [if_pos hheader]
      exact ⟨_, rfl, .inl (by omega)⟩
  rw [readProp, hr, ok_bind]
  obtain hneg | ⟨k, rfl, hstands⟩ := hfound
  · rw [if_pos hneg]
    exact .inl ⟨r, hneg, rfl⟩
  · rw [if_neg (Int.not_lt.mpr (Int.natCast_nonneg k)), fdtGetprop]
    obtain ⟨err, herr, hget⟩ | ⟨off, len, hget, hholds⟩ := fdtGetprop_outcome h hfine hnamed hstands name.chars
    · rw [hget]
      exact .inl ⟨err, herr, rfl⟩
    · rw [hget, ok_bind]
      dsimp only
      rw [loadBytes_of_le (hholds.limit.trans h.memory)]
      exact .inr ⟨off, len, hholds, rfl⟩

/-- `/ { phandle = <3 0xfffffff4>; aliases { phandle = <5>; }; };`, where the first value reads as the
tag of a property with a length that wraps. -/
def sampleFdt : Fdt :=
  ⟨[fdtMagic, 132, 56, 124, 40, 17, 16, 0, 8, 68, 0, 0, 0, 0, 1, 0, 3, 8, 0, 3, 0xFFFFFFF4, 1, 0x616C6961,
      0x73657300, 3, 4, 0, 5, 2, 2, 9].flatMap (toBytes 4) ++ phandleString.bytes,
    by decide +kernel⟩

def sampleOffsets : List ℕ := [0, 8, 28, 40, 56, 60, 64]

theorem stands_sample {off : ℕ} (hstands : Stands sampleFdt off) : off ∈ sampleOffsets := by
  have hstep : ∀ k ∈ sampleOffsets, ∀ r ∈ (fdtNextTag sampleFdt k).toOption,
      r.1 = fdtEnd ∨ r.2.toNat ∈ sampleOffsets := by decide +kernel
  induction hstands with
  | start => decide
  | next _ hnext htag ih => exact (hstep _ ih _ (by rw [hnext]; rfl)).resolve_left htag

theorem sampleFdt_checks :
    Loaded sampleFdt ∧ (∀ off, Stands sampleFdt off → ¬Overlong sampleFdt off) ∧ Named sampleFdt := by
  refine ⟨⟨by decide +kernel, by decide +kernel⟩, ?_, ?_⟩
  · rintro off hstands ⟨len, hlo, hlt, hplace⟩
    have hshort : ∀ k ∈ sampleOffsets, ∀ v ∈ (load32 sampleFdt (sampleFdt.offDtStruct + k + 4)).toOption,
        v < 2 ^ 32 - 12 := by decide +kernel
    have hright := hplace.right
    rw [length_toBytes] at hright
    have hlen := hshort off (stands_sample hstands) len (by rw [load32_of_hasAt hlt hright]; rfl)
    omega
  · intro off hprop nameoff hload
    obtain ⟨hstands, off', hnext, -⟩ := hprop
    have hname : ∀ k ∈ sampleOffsets, ∀ r ∈ (fdtNextTag sampleFdt k).toOption, r.1 = fdtProp →
        ∀ v ∈ (load32 sampleFdt (sampleFdt.offDtStruct + k + 8)).toOption, v = 0 := by decide +kernel
    have hzero := hname off (stands_sample hstands) (fdtProp, off') (by rw [hnext]; rfl) rfl nameoff
      (by rw [hload]; rfl)
    subst hzero
    exact ⟨124, phandleString, by decide +kernel, sampleFdt.bytes.take 124, [], by decide +kernel,
      by decide +kernel⟩

theorem readProp_outcome_sample :
    (∃ err < 0, readProp sampleFdt 1 aliasesString phandleString = .ok (.error err)) ∨
      ∃ off len, NamedProp sampleFdt phandleString.chars off len ∧
        readProp sampleFdt 1 aliasesString phandleString =
          .ok (.ok (slice sampleFdt.bytes (sampleFdt.offDtStruct + off + 12) len)) :=
  readProp_outcome sampleFdt_checks.1 sampleFdt_checks.2.1 sampleFdt_checks.2.2 rfl (by decide) 0

/-- A handle is looked for in all of such a blob, and what is found is a node. -/
theorem fdtNodeOffsetByPhandle_outcome (h : Loaded fdt) (hfine : ∀ off, Stands fdt off → ¬Overlong fdt off)
    (hnamed : Named fdt) (phandle : ℕ) :
    ∃ r, fdtNodeOffsetByPhandle fdt phandle = .ok r ∧ Found fdt r := by
  have hle := fdtCheckHeader_le fdt
  have hfuel := enough_of_loaded h
  rw [fdtNodeOffsetByPhandle]
  split
  · exact ⟨_, rfl, .inl (by decide)⟩
  · split
    · exact ⟨_, rfl, .inl (by omega)⟩
    · obtain ⟨⟨next, depth⟩, hnext, hcomes⟩ := nextNodeLoop_outcome h hfine fdt.fuel .start none (by omega)
      have hnext : nextNodeLoop fdt fdt.fuel 0 none = .ok (next, depth) := hnext
      rw [fdtNextNode, if_neg (by decide), hnext, ok_bind]
      dsimp only
      obtain herr | ⟨hcounted, -⟩ | ⟨k, rfl, -, hnode⟩ := hcomes
      · rw [Fdt.fuel, byPhandleLoop, if_pos herr]
        exact ⟨_, rfl, .inl herr⟩
      · cases hcounted
      · exact byPhandleLoop_outcome h hfine hnamed phandle fdt.fuel hnode (by omega)

theorem fdtNodeOffsetByPhandle_outcome_sample :
    ∃ r, fdtNodeOffsetByPhandle sampleFdt 5 = .ok r ∧ Found sampleFdt r :=
  fdtNodeOffsetByPhandle_outcome sampleFdt_checks.1 sampleFdt_checks.2.1 sampleFdt_checks.2.2 5

end Runs

section Endless

variable {fdt : Fdt} {n off off' : ℕ}

theorem int32_add_pow (x : ℤ) : int32 (x + 2 ^ 32) = int32 x := by
  rw [int32, int32, Int.bmod_def, Int.bmod_def]
  omega

/-- The end of the property is its beginning. -/
theorem fdtNextTag_overlong (h : Extent fdt n) (hle : off + 8 ≤ n) (hdvd : 4 ∣ off)
    (hplace : HasAt fdt.bytes (fdt.offDtStruct + off) (toBytes 4 fdtProp ++ toBytes 4 (2 ^ 32 - 12))) :
    fdtNextTag fdt off = .ok (fdtProp, (off : ℤ)) := by
  have hstruct := h.struct
  have hsmall := h.small
  have hword := load32_of_hasAt (by decide) hplace.left
  have hright := hplace.right
  rw [length_toBytes, Nat.add_assoc] at hright
  have hlen := load32_of_hasAt (by decide) hright
  have hptr : fdtOffsetPtr fdt ((off + 4 : ℕ) : ℤ) 4 = some (fdt.offDtStruct + (off + 4)) :=
    fdtOffsetPtr_of_le h hle
  have hself : fdtOffsetPtr fdt off 0 = some (fdt.offDtStruct + off) := fdtOffsetPtr_of_le h (by omega)
  have hint : int32 (off : ℤ) = off := int32_natCast (by omega)
  have hsum : ((off : ℕ) : ℤ) + 4 + 8 + ((2 ^ 32 - 12 : ℕ) : ℤ) = (off : ℤ) + 2 ^ 32 := by omega
  have hend : tagEnd fdt fdtProp ((off : ℤ) + 4) = .ok (some (off : ℤ)) := by
    rw [tagEnd, if_neg (by decide), if_pos rfl, show ((off : ℕ) : ℤ) + 4 = ((off + 4 : ℕ) : ℤ) from rfl, hptr]
    dsimp only
    rw [hlen, ok_bind]
    rw [show ((off + 4 : ℕ) : ℤ) = (off : ℤ) + 4 from rfl, hsum, int32_add_pow, hint]
    rfl
  have hsub : u32 ((off : ℤ) - off) = 0 := by
    rw [Int.sub_self]
    rfl
  rw [fdtNextTag, fdtOffsetPtr_of_le h (by omega)]
  dsimp only
  rw [hword, ok_bind, hend, ok_bind]
  dsimp only
  rw [hsub, hself, Int.toNat_natCast, align_of_dvd (by decide) hdvd, hint]
  rfl

/-- A walk that comes to such a property over others never ends. -/
theorem nextNodeLoop_endless (h : Extent fdt n) (props : List (CString × List Byte))
    (hprops : Chain fdt n off (props.map fun p => .prop p.1 p.2) off') (hle : off' + 8 ≤ n) (hdvd : 4 ∣ off')
    (hplace : HasAt fdt.bytes (fdt.offDtStruct + off') (toBytes 4 fdtProp ++ toBytes 4 (2 ^ 32 - 12)))
    (fuel : ℕ) (depth : Option ℤ) : nextNodeLoop fdt fuel off depth = .error .fuel := by
  induction fuel generalizing off props with
  | zero => rfl
  | succ fuel ih =>
    cases props with
    | nil =>
      cases hprops
      rw [nextNodeLoop, fdtNextTag_overlong h hle hdvd hplace, ok_bind]
      exact ih [] (.nil off')
    | cons p props =>
      cases hprops with
      | cons htag hrest =>
        rw [nextNodeLoop, fdtNextTag_of_tagAt h htag, ok_bind]
        exact ih props hrest

/-- A root with such a property behind `phandle = [01];`. -/
def overlongFdt : Fdt :=
  ⟨[fdtMagic, 88, 40, 80, 40, 17, 16, 0, 8, 40, 1, 0, 3, 1, 0, 0x01000000, 3, 2 ^ 32 - 12, 0, 9].flatMap (toBytes 4)
      ++ phandleString.bytes,
    by decide +kernel⟩

theorem nextNodeLoop_endless_sample : nextNodeLoop overlongFdt overlongFdt.fuel 8 (some 0) = .error .fuel := by
  have hextent : Extent overlongFdt 40 :=
    ⟨by decide +kernel, fun _ => by decide +kernel, by decide +kernel, by decide +kernel⟩
  have hfront : TagAt overlongFdt 40 8 (.prop phandleString [1#8]) 24 :=
    @TagAt.prop _ _ _ _ 0 _ _ (by decide)
      ⟨overlongFdt.bytes.take 48, overlongFdt.bytes.drop 61, by decide +kernel, by decide +kernel⟩
      ⟨overlongFdt.bytes.take 80, [], by decide +kernel, by decide +kernel⟩ (by decide) (by decide) (by decide)
  have hplace : HasAt overlongFdt.bytes (overlongFdt.offDtStruct + 24)
      (toBytes 4 fdtProp ++ toBytes 4 (2 ^ 32 - 12)) :=
    ⟨overlongFdt.bytes.take 64, overlongFdt.bytes.drop 72, by decide +kernel, by decide +kernel⟩
  exact nextNodeLoop_endless hextent [(phandleString, [1#8])] (.cons hfront (.nil 24)) (by decide) (by decide)
    hplace _ _

end Endless

end PynqPrio.Libfdt
