import PynqPrio.FdtTags

/-!
# Writing a tree in sequence

The functions of `libfdt` that write a blob from its beginning to its end. The structure block
grows behind the reservations and the table of strings down from the end of the buffer, until
`fdt_finish` moves the strings to their place and counts the offsets of the names from there.
-/
namespace PynqPrio.Libfdt
open Formats

section Stores

variable (fdt : Fdt)

/-- The memory with other bytes in one place. -/
def Fdt.store (p : ℕ) (bs : List Byte) : Fdt :=
  ⟨overwrite fdt.bytes p bs, fdt.header.trans (le_length_overwrite _ _ _)⟩

def storeBytes (p : ℕ) (bs : List Byte) : Access Fdt :=
  if fdt.bytes.length < p + bs.length then throw .outside else pure (fdt.store p bs)

def Fdt.setWord (i v : ℕ) : Fdt := fdt.store (4 * i) (toBytes 4 v)

abbrev Fdt.sizeDtStrings : ℕ := fdt.word 8

/-- A place that is worked out with signs. -/
def place (p : ℤ) : Access ℕ := if p < 0 then throw .outside else pure p.toNat

def u64 (x : ℤ) : ℕ := (x % 2 ^ 64).toNat

end Stores

def errNospace : ℤ := 3

section Sequential

variable (fdt : Fdt)

def fdtSwCheckHeader : ℤ := if fdt.magic = fdtSwMagic then 0 else -errBadmagic

/-- More of the structure block, up to the table of strings. -/
def fdtGrabSpace (len : ℕ) : Option (ℤ × Fdt) :=
  let offset := int32 fdt.sizeDtStruct
  let spaceleft := int32 ((fdt.totalsize : ℤ) - fdt.offDtStruct - fdt.sizeDtStrings)
  if u64 (offset + len) < u64 offset ∨ u64 spaceleft < u64 (offset + len) then none
  else some (fdt.offDtStruct + offset, fdt.setWord 9 (u32 (offset + len)))

/-- The rest of the memory stays behind the buffer. -/
def fdtCreate (buf : List Byte) (bufsize : ℕ) : Access (Except ℤ Fdt) :=
  if h : bufsize < 40 then pure (.error (-errNospace))
  else if buf.length < bufsize then throw .outside
  else
    let fdt : Fdt := ⟨List.replicate bufsize 0#8 ++ buf.drop bufsize, by simp; omega⟩
    let fdt := ((fdt.setWord 0 fdtSwMagic).setWord 5 lastSupportedVersion).setWord 6 firstSupportedVersion
    let fdt := fdt.setWord 1 bufsize
    let fdt := fdt.setWord 4 (align 40 16)
    let fdt := fdt.setWord 2 fdt.offMemRsvmap
    pure (.ok (fdt.setWord 3 bufsize))

def fdtAddReservemapEntry (addr size : BitVec 64) : Access (ℤ × Fdt) :=
  if fdtSwCheckHeader fdt ≠ 0 then pure (fdtSwCheckHeader fdt, fdt)
  else if fdt.sizeDtStruct ≠ 0 then pure (-errBadstate, fdt)
  else
    let offset := int32 fdt.offDtStruct
    if fdt.totalsize < u64 (offset + 16) then pure (-errNospace, fdt)
    else do
      let fdt ← storeBytes fdt (← place offset) (toBytes 8 addr.toNat ++ toBytes 8 size.toNat)
      pure (0, fdt.setWord 2 (u32 (offset + 16)))

def fdtFinishReservemap : Access (ℤ × Fdt) := fdtAddReservemapEntry fdt 0 0

def fdtBeginNodeCall (name : CString) : Access (ℤ × Fdt) :=
  if fdtSwCheckHeader fdt ≠ 0 then pure (fdtSwCheckHeader fdt, fdt)
  else
    match fdtGrabSpace fdt (4 + align name.bytes.length 4) with
    | none => pure (-errNospace, fdt)
    | some (nh, fdt) => do
      let fdt ← storeBytes fdt (← place nh) (toBytes 4 fdtBeginNode)
      let fdt ← storeBytes fdt (← place (nh + 4)) name.bytes
      pure (0, fdt)

def fdtEndNodeCall : Access (ℤ × Fdt) :=
  if fdtSwCheckHeader fdt ≠ 0 then pure (fdtSwCheckHeader fdt, fdt)
  else
    match fdtGrabSpace fdt 4 with
    | none => pure (-errNospace, fdt)
    | some (en, fdt) => do
      let fdt ← storeBytes fdt (← place en) (toBytes 4 fdtEndNode)
      pure (0, fdt)

/-- The first place in a table where a string stands. -/
def fdtFindString (strtab : List Byte) (s : CString) : Option ℕ :=
  (List.range (strtab.length + 1 - s.bytes.length)).find? fun i => slice strtab i s.bytes.length = s.bytes

/-- The place of a string from the end of the table, or 0 if there is no more room. -/
def fdtFindAddString (s : CString) : Access (ℤ × Fdt) := do
  let strtabsize := int32 fdt.sizeDtStrings
  let strtab ← loadBytes fdt (← place (fdt.totalsize - strtabsize)) strtabsize.toNat
  match fdtFindString strtab s with
  | some i => pure (i - strtabsize, fdt)
  | none =>
    let offset := -strtabsize - s.bytes.length
    let structTop := int32 ((fdt.offDtStruct : ℤ) + fdt.sizeDtStruct)
    if u32 (fdt.totalsize + offset) < u32 structTop then pure (0, fdt)
    else
      let fdt' ← storeBytes fdt (← place (fdt.totalsize + offset)) s.bytes
      pure (offset, fdt'.setWord 8 (u32 (strtabsize + s.bytes.length)))

def fdtProperty (name : CString) (val : List Byte) : Access (ℤ × Fdt) :=
  if fdtSwCheckHeader fdt ≠ 0 then pure (fdtSwCheckHeader fdt, fdt)
  else do
    let (nameoff, fdt) ← fdtFindAddString fdt name
    if nameoff = 0 then pure (-errNospace, fdt)
    else
      match fdtGrabSpace fdt (12 + align val.length 4) with
      | none => pure (-errNospace, fdt)
      | some (prop, fdt) =>
        let fdt ← storeBytes fdt (← place prop) (toBytes 4 fdtProp)
        let fdt ← storeBytes fdt (← place (prop + 8)) (toBytes 4 (u32 nameoff))
        let fdt ← storeBytes fdt (← place (prop + 4)) (toBytes 4 val.length)
        let fdt ← storeBytes fdt (← place (prop + 12)) val
        pure (0, fdt)

/-- The loop of `fdt_finish`, with the offset behind the last tag. -/
def finishLoop : ℕ → Fdt → ℤ → Access (ℤ × Fdt)
  | 0, _, _ => throw .fuel
  | fuel + 1, fdt, offset => do
    let (tag, nextoffset) ← fdtNextTag fdt offset
    if tag = fdtEnd then pure (nextoffset, fdt)
    else if tag = fdtProp then
      let prop ← place (fdt.offDtStruct + offset)
      let nameoff ← load32 fdt (prop + 8)
      let fdt ← storeBytes fdt (prop + 8) (toBytes 4 (u32 (int32 nameoff + fdt.sizeDtStrings)))
      finishLoop fuel fdt nextoffset
    else finishLoop fuel fdt nextoffset

def fdtFinish : Access (ℤ × Fdt) :=
  if fdtSwCheckHeader fdt ≠ 0 then pure (fdtSwCheckHeader fdt, fdt)
  else
    match fdtGrabSpace fdt 4 with
    | none => pure (-errNospace, fdt)
    | some (tail, fdt) => do
      let fdt ← storeBytes fdt (← place tail) (toBytes 4 fdtEnd)
      let oldstroffset := int32 ((fdt.totalsize : ℤ) - fdt.sizeDtStrings)
      let newstroffset := int32 ((fdt.offDtStruct : ℤ) + fdt.sizeDtStruct)
      let strings ← loadBytes fdt (← place oldstroffset) fdt.sizeDtStrings
      let fdt ← storeBytes fdt (← place newstroffset) strings
      let fdt := fdt.setWord 3 (u32 newstroffset)
      let (nextoffset, fdt) ← finishLoop fdt.fuel fdt 0
      if nextoffset < 0 then pure (nextoffset, fdt)
      else
        let fdt := fdt.setWord 1 (u32 (newstroffset + fdt.sizeDtStrings))
        pure (0, fdt.setWord 0 fdtMagic)

/-- The reservations in a row, up to the first error. -/
def addReserves : Fdt → List (BitVec 64 × BitVec 64) → Access (ℤ × Fdt)
  | fdt, [] => fdtFinishReservemap fdt
  | fdt, (addr, size) :: reserves => do
    let (r, fdt) ← fdtAddReservemapEntry fdt addr size
    if r ≠ 0 then pure (r, fdt) else addReserves fdt reserves

end Sequential

end PynqPrio.Libfdt
