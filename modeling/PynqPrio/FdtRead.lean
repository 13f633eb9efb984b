import PynqPrio.ByteStrings

/-!
# Reading a tree in place

The read-only functions of `libfdt`, which walk over the tags of a blob. Offsets and results are
of type `int`, and a negative result is an error. An access outside of the memory of the blob
is undefined in C and a fault here.
-/
namespace PynqPrio.Libfdt
open Formats

/-- The memory of a blob with all of its header. -/
structure Fdt where
  bytes : List Byte
  header : 40 ≤ bytes.length

def Fdt.word (fdt : Fdt) (i : ℕ) : ℕ := ofBytes (slice fdt.bytes (4 * i) 4)

abbrev Fdt.magic (fdt : Fdt) : ℕ := fdt.word 0
abbrev Fdt.totalsize (fdt : Fdt) : ℕ := fdt.word 1
abbrev Fdt.offDtStruct (fdt : Fdt) : ℕ := fdt.word 2
abbrev Fdt.offDtStrings (fdt : Fdt) : ℕ := fdt.word 3
abbrev Fdt.offMemRsvmap (fdt : Fdt) : ℕ := fdt.word 4
abbrev Fdt.version (fdt : Fdt) : ℕ := fdt.word 5
abbrev Fdt.lastCompVersion (fdt : Fdt) : ℕ := fdt.word 6
abbrev Fdt.sizeDtStruct (fdt : Fdt) : ℕ := fdt.word 9

inductive Fault
  | outside
  | fuel
deriving DecidableEq

abbrev Access := Except Fault

theorem ok_bind {ε α β : Type} (a : α) (f : α → Except ε β) : (Except.ok a >>= f) = f a := rfl

section Constants

def fdtMagic : ℕ := 0xd00dfeed
def fdtSwMagic : ℕ := 2 ^ 32 - 1 - fdtMagic
def firstSupportedVersion : ℕ := 16
def lastSupportedVersion : ℕ := 17

def fdtBeginNode : ℕ := 1
def fdtEndNode : ℕ := 2
def fdtProp : ℕ := 3
def fdtNop : ℕ := 4
def fdtEnd : ℕ := 9

def errNotfound : ℤ := 1
def errBadoffset : ℤ := 4
def errBadpath : ℤ := 5
def errBadphandle : ℤ := 6
def errBadstate : ℤ := 7
def errTruncated : ℤ := 8
def errBadmagic : ℤ := 9
def errBadversion : ℤ := 10
def errBadstructure : ℤ := 11

end Constants

section Integers

def u32 (x : ℤ) : ℕ := (x % 2 ^ 32).toNat

def int32 (x : ℤ) : ℤ := Int.bmod x (2 ^ 32)

theorem u32_natCast {n : ℕ} (h : n < 2 ^ 32) : u32 n = n := by
  rw [u32]
  omega

theorem int32_of_lt {x : ℤ} (hlo : 0 ≤ x) (hhi : x < 2 ^ 31) : int32 x = x := by
  rw [int32, Int.bmod_eq_of_le] <;> omega

theorem int32_natCast {n : ℕ} (h : n < 2 ^ 31) : int32 n = n := int32_of_lt (Int.natCast_nonneg n) (by omega)

end Integers

section Tags

variable (fdt : Fdt)

def load8 (p : ℕ) : Access Byte :=
  match fdt.bytes[p]? with
  | some b => pure b
  | none => throw .outside

def loadBytes (p n : ℕ) : Access (List Byte) :=
  if fdt.bytes.length < p + n then throw .outside else pure (slice fdt.bytes p n)

def load32 (p : ℕ) : Access ℕ := return ofBytes (← loadBytes fdt p 4)

/-- A string, whose end is looked for in all of the memory. -/
def loadString (p : ℕ) : Access CString :=
  match CString.scan fdt.bytes p fdt.bytes.length with
  | some str => pure str
  | none => throw .outside

def fdtCheckHeader : ℤ :=
  if fdt.magic = fdtMagic then
    if fdt.version < firstSupportedVersion then -errBadversion
    else if lastSupportedVersion < fdt.lastCompVersion then -errBadversion
    else 0
  else if fdt.magic = fdtSwMagic then
    if fdt.sizeDtStruct = 0 then -errBadstate else 0
  else -errBadmagic

/-- The place of `len` bytes of the structure block, if they are within the blob. -/
def fdtOffsetPtr (offset : ℤ) (len : ℕ) : Option ℕ :=
  let absoffset := u32 (offset + fdt.offDtStruct)
  if absoffset < u32 offset ∨ u32 (absoffset + len) < absoffset ∨ fdt.totalsize < u32 (absoffset + len) then
    none
  else if 17 ≤ fdt.version ∧ (u32 (offset + len) < u32 offset ∨ fdt.sizeDtStruct < u32 (offset + len)) then
    none
  else some absoffset

/-- The loop of `fdt_next_tag` over a name. -/
def skipName : ℕ → ℤ → Access (Option ℤ)
  | 0, _ => throw .fuel
  | fuel + 1, offset =>
    match fdtOffsetPtr fdt offset 1 with
    | none => pure none
    | some p => do
      let c ← load8 fdt p
      if c = 0#8 then pure (some (offset + 1)) else skipName fuel (offset + 1)

/-- The end of what a tag stands in front of; `none` where it is premature or the tag is not one. -/
def tagEnd (tag : ℕ) (offset : ℤ) : Access (Option ℤ) :=
  if tag = fdtBeginNode then skipName fdt (fdt.totalsize + 1) offset
  else if tag = fdtProp then
    match fdtOffsetPtr fdt offset 4 with
    | none => pure none
    | some lenp => do
      let len ← load32 fdt lenp
      pure (some (int32 (offset + 8 + len)))
  else if tag = fdtEnd ∨ tag = fdtEndNode ∨ tag = fdtNop then pure (some offset)
  else pure none

/-- The tag and the offset of the next one. -/
def fdtNextTag (startoffset : ℤ) : Access (ℕ × ℤ) :=
  match fdtOffsetPtr fdt startoffset 4 with
  | none => pure (fdtEnd, -errTruncated)
  | some tagp => do
    let tag ← load32 fdt tagp
    match ← tagEnd fdt tag (startoffset + 4) with
    | none => pure (fdtEnd, -errBadstructure)
    | some offset =>
      if (fdtOffsetPtr fdt startoffset (u32 (offset - startoffset))).isNone then
        pure (fdtEnd, -errBadstructure)
      else pure (tag, int32 (align offset.toNat 4))

/-- `_fdt_check_node_offset` and `_fdt_check_prop_offset`. -/
def fdtCheckOffset (tag : ℕ) (offset : ℤ) : Access ℤ :=
  if offset < 0 ∨ offset % 4 ≠ 0 then pure (-errBadoffset)
  else do
    let (found, next) ← fdtNextTag fdt offset
    pure (if found = tag then next else -errBadoffset)

def fdtCheckNodeOffset (offset : ℤ) : Access ℤ := fdtCheckOffset fdt fdtBeginNode offset
def fdtCheckPropOffset (offset : ℤ) : Access ℤ := fdtCheckOffset fdt fdtProp offset

end Tags

section Nodes

variable (fdt : Fdt)

/-- The loop of `fdt_next_node`. Where `depth` is `NULL` it is `none`. -/
def nextNodeLoop : ℕ → ℤ → Option ℤ → Access (ℤ × Option ℤ)
  | 0, _, _ => throw .fuel
  | fuel + 1, offset, depth => do
    let (tag, nextoffset) ← fdtNextTag fdt offset
    if tag = fdtBeginNode then pure (offset, depth.map (· + 1))
    else if tag = fdtEndNode then
      match depth with
      | some d => if d - 1 < 0 then pure (nextoffset, some (d - 1)) else nextNodeLoop fuel nextoffset (some (d - 1))
      | none => nextNodeLoop fuel nextoffset none
    else if tag = fdtEnd then
      if 0 ≤ nextoffset ∨ nextoffset = -errTruncated ∧ depth = none then pure (-errNotfound, depth)
      else pure (nextoffset, depth)
    else nextNodeLoop fuel nextoffset depth

/-- Every tag takes four bytes of the blob. -/
def Fdt.fuel : ℕ := fdt.bytes.length + 1

def fdtNextNode (offset : ℤ) (depth : Option ℤ) : Access (ℤ × Option ℤ) :=
  if 0 ≤ offset then do
    let nextoffset ← fdtCheckNodeOffset fdt offset
    if nextoffset < 0 then pure (nextoffset, depth) else nextNodeLoop fdt fdt.fuel nextoffset depth
  else nextNodeLoop fdt fdt.fuel 0 depth

def nodenameEq (offset : ℤ) (s : List Byte) : Access Bool :=
  match fdtOffsetPtr fdt (offset + 4) (s.length + 1) with
  | none => pure false
  | some p => do
    let name ← loadBytes fdt p (s.length + 1)
    if name.take s.length ≠ s then pure false
    else
      let last := name.drop s.length
      pure (last = [0#8] || !s.contains 0x40#8 && last = [0x40#8])

/-- The loop of `fdt_subnode_offset_namelen`. -/
def subnodeLoop (name : List Byte) : ℕ → ℤ → ℤ → Access ℤ
  | 0, _, _ => throw .fuel
  | fuel + 1, offset, depth =>
    if 0 ≤ offset ∧ 0 ≤ depth then do
      let found ← (if depth = 1 then nodenameEq fdt offset name else pure false)
      if found then pure offset
      else
        let (offset, depth') ← fdtNextNode fdt offset (some depth)
        subnodeLoop name fuel offset (depth'.getD depth)
    else pure (if depth < 0 then -errNotfound else offset)

def fdtSubnodeOffsetNamelen (offset : ℤ) (name : List Byte) : Access ℤ :=
  if fdtCheckHeader fdt ≠ 0 then pure (fdtCheckHeader fdt) else subnodeLoop fdt name fdt.fuel offset 0

end Nodes

section Properties

variable (fdt : Fdt)

/-- The loop of `_nextprop`. -/
def nextpropLoop : ℕ → ℤ → Access ℤ
  | 0, _ => throw .fuel
  | fuel + 1, offset => do
    let (tag, nextoffset) ← fdtNextTag fdt offset
    if tag = fdtEnd then pure (if 0 ≤ nextoffset then -errBadstructure else nextoffset)
    else if tag = fdtProp then pure offset
    else if tag = fdtNop then nextpropLoop fuel nextoffset
    else pure (-errNotfound)

def nextprop (offset : ℤ) : Access ℤ := nextpropLoop fdt fdt.fuel offset

def fdtFirstPropertyOffset (nodeoffset : ℤ) : Access ℤ := do
  let offset ← fdtCheckNodeOffset fdt nodeoffset
  if offset < 0 then pure offset else nextprop fdt offset

def fdtNextPropertyOffset (offset : ℤ) : Access ℤ := do
  let offset ← fdtCheckPropOffset fdt offset
  if offset < 0 then pure offset else nextprop fdt offset

structure PropertyPtr where
  offset : ℤ
  len : ℕ
  nameoff : ℕ
deriving DecidableEq

def PropertyPtr.data (prop : PropertyPtr) : ℕ := (prop.offset + fdt.offDtStruct).toNat + 12

def fdtGetPropertyByOffset (offset : ℤ) : Access (Except ℤ PropertyPtr) := do
  let err ← fdtCheckPropOffset fdt offset
  if err < 0 then pure (.error err)
  else
    let p := (offset + fdt.offDtStruct).toNat
    let len ← load32 fdt (p + 4)
    let nameoff ← load32 fdt (p + 8)
    pure (.ok ⟨offset, len, nameoff⟩)

def fdtString (stroffset : ℤ) : ℤ := fdt.offDtStrings + stroffset

def fdtStringEq (stroffset : ℤ) (s : List Byte) : Access Bool :=
  if fdtString fdt stroffset < 0 then throw .outside
  else do
    let p ← loadString fdt (fdtString fdt stroffset).toNat
    pure (decide (p.chars = s))

def errInternal : ℤ := 13

/-- The loop of `fdt_get_property_namelen`. -/
def getPropertyLoop (name : List Byte) : ℕ → ℤ → Access (Except ℤ PropertyPtr)
  | 0, _ => throw .fuel
  | fuel + 1, offset =>
    if offset < 0 then pure (.error offset)
    else do
      match ← fdtGetPropertyByOffset fdt offset with
      | .error _ => pure (.error (-errInternal))
      | .ok prop =>
        let eq ← fdtStringEq fdt (int32 prop.nameoff) name
        if eq then pure (.ok prop)
        else
          let offset ← fdtNextPropertyOffset fdt offset
          getPropertyLoop name fuel offset

def fdtGetPropertyNamelen (offset : ℤ) (name : List Byte) : Access (Except ℤ PropertyPtr) := do
  let offset ← fdtFirstPropertyOffset fdt offset
  getPropertyLoop fdt name fdt.fuel offset

/-- The place of the value and its length. -/
def fdtGetpropNamelen (nodeoffset : ℤ) (name : List Byte) : Access (Except ℤ (ℕ × ℕ)) := do
  match ← fdtGetPropertyNamelen fdt nodeoffset name with
  | .error err => pure (.error err)
  | .ok prop => pure (.ok (prop.data fdt, prop.len))

def fdtGetprop (nodeoffset : ℤ) (name : CString) : Access (Except ℤ (ℕ × ℕ)) :=
  fdtGetpropNamelen fdt nodeoffset name.chars

/-- `"phandle"` and `"linux,phandle"` -/
def phandleString : CString := ⟨[0x70#8, 0x68#8, 0x61#8, 0x6E#8, 0x64#8, 0x6C#8, 0x65#8], by decide⟩
def linuxPhandleString : CString :=
  ⟨[0x6C#8, 0x69#8, 0x6E#8, 0x75#8, 0x78#8, 0x2C#8, 0x70#8, 0x68#8, 0x61#8, 0x6E#8, 0x64#8, 0x6C#8, 0x65#8],
    by decide⟩

def getCell (nodeoffset : ℤ) (name : CString) : Access (Option ℕ) := do
  match ← fdtGetprop fdt nodeoffset name with
  | .error _ => pure none
  | .ok (php, len) => if len ≠ 4 then pure none else return some (← load32 fdt php)

def fdtGetPhandle (nodeoffset : ℤ) : Access ℕ := do
  match ← getCell fdt nodeoffset phandleString with
  | some phandle => pure phandle
  | none =>
    match ← getCell fdt nodeoffset linuxPhandleString with
    | some phandle => pure phandle
    | none => pure 0

/-- The loop of `fdt_node_offset_by_phandle`. -/
def byPhandleLoop (phandle : ℕ) : ℕ → ℤ → Access ℤ
  | 0, _ => throw .fuel
  | fuel + 1, offset =>
    if offset < 0 then pure offset
    else do
      let found ← fdtGetPhandle fdt offset
      if found = phandle then pure offset
      else
        let (offset, _) ← fdtNextNode fdt offset none
        byPhandleLoop phandle fuel offset

def fdtNodeOffsetByPhandle (phandle : ℕ) : Access ℤ :=
  if phandle = 0 ∨ phandle = 2 ^ 32 - 1 then pure (-errBadphandle)
  else if fdtCheckHeader fdt ≠ 0 then pure (fdtCheckHeader fdt)
  else do
    let (offset, _) ← fdtNextNode fdt (-1) none
    byPhandleLoop fdt phandle fdt.fuel offset

end Properties

section Paths

variable (fdt : Fdt)

/-- The loop of `fdt_path_offset_namelen` over what is left of the path. -/
def pathLoop : ℕ → List Byte → ℤ → Access ℤ
  | 0, _, _ => throw .fuel
  | fuel + 1, path, offset =>
    let p := path.dropWhile (· = 0x2F#8)
    if p = [] then pure offset
    else do
      let offset ← fdtSubnodeOffsetNamelen fdt offset (p.takeWhile (· ≠ 0x2F#8))
      if offset < 0 then pure offset else pathLoop fuel (p.dropWhile (· ≠ 0x2F#8)) offset

/-- `"/aliases"` -/
def aliasesString : CString :=
  ⟨[0x2F#8, 0x61#8, 0x6C#8, 0x69#8, 0x61#8, 0x73#8, 0x65#8, 0x73#8], by decide⟩

/-- The place of the string that an alias stands for. -/
def fdtGetAliasNamelen (name : List Byte) : Access (Option ℕ) := do
  let aliasoffset ← pathLoop fdt (aliasesString.chars.length + 1) aliasesString.chars 0
  if aliasoffset < 0 then pure none
  else
    match ← fdtGetpropNamelen fdt aliasoffset name with
    | .error _ => pure none
    | .ok (p, _) => pure (some p)

/-- An alias can stand for a path that begins with an alias. -/
def fdtPathOffsetNamelen : ℕ → List Byte → Access ℤ
  | 0, _ => throw .fuel
  | fuel + 1, path =>
    if fdtCheckHeader fdt ≠ 0 then pure (fdtCheckHeader fdt)
    else if path.head? = some 0x2F#8 then pathLoop fdt (path.length + 1) path 0
    else do
      match ← fdtGetAliasNamelen fdt (path.takeWhile (· ≠ 0x2F#8)) with
      | none => pure (-errBadpath)
      | some p =>
        let target ← loadString fdt p
        let offset ← fdtPathOffsetNamelen fuel target.chars
        pathLoop fdt (path.length + 1) (path.dropWhile (· ≠ 0x2F#8)) offset

/-- An alias that stands for itself leads to an endless recursion. -/
def fdtPathOffset (fuel : ℕ) (path : CString) : Access ℤ := fdtPathOffsetNamelen fdt fuel path.chars

/-- What is read by the path of a node and the name of a property. -/
def readProp (fuel : ℕ) (path name : CString) : Access (Except ℤ (List Byte)) := do
  let offset ← fdtPathOffset fdt fuel path
  if offset < 0 then pure (.error offset)
  else
    match ← fdtGetprop fdt offset name with
    | .error err => pure (.error err)
    | .ok (p, len) => return .ok (← loadBytes fdt p len)

end Paths

end PynqPrio.Libfdt
