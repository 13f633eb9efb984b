import PynqPrio.DtcFlatten
import PynqPrio.ReadBack

/-!
# Reading a blob

`dt_from_blob` with what it stops with: a message, a failed assertion, or an access outside of
the blob, which C leaves undefined.
-/
namespace PynqPrio.Dtc
open Formats

inductive Message
  | eofMagic
  | badMagic
  | eofSize
  | tooSmall (totalsize : ℕ)
  | eofBlob (totalsize : ℕ)
  | reserveOffset
  | structureOffset
  | stringsOffset
  | stringsSize
  | structureSize
  | prematureEnd
  | stringOverrun (offset : ℤ)
  | notChild (cpath ppath : CString)
  | noBeginNode (val : ℕ)
  | prematureFdtEnd
  | invalidOpcode (val : ℕ)
  | noFdtEnd
  | reallocFailed
deriving DecidableEq

inductive Stop
  | die (message : Message)
  | assertion
  | outside
  | fuel
deriving DecidableEq

abbrev FlatReader := Reader Stop

/-- A part of the blob that is read from `base` on and below `limit`. -/
structure Inbuf where
  base : ℕ
  limit : ℕ

section Flat

variable (blob : List Byte)

def flatReadChunk (inb : Inbuf) (len : ℕ) : FlatReader (List Byte) := do
  let ptr ← get
  if inb.limit < ptr + len then throw (.die .prematureEnd)
  else if blob.length < ptr + len then throw .outside
  else
    set (ptr + len)
    pure (slice blob ptr len)

def flatReadWord (inb : Inbuf) : FlatReader ℕ := do
  let ptr ← get
  if (ptr - inb.base) % 4 ≠ 0 then throw .assertion
  else
    let val ← flatReadChunk blob inb 4
    pure (ofBytes val)

def flatRealign (inb : Inbuf) (a : ℕ) : FlatReader Unit := do
  let ptr ← get
  let ptr := inb.base + align (ptr - inb.base) a
  if inb.limit < ptr then throw (.die .prematureEnd)
  else set ptr

def readCString (lo limit : ℕ) (message : Message) : FlatReader CString :=
  match CString.scan blob lo limit with
  | some str => pure str
  | none => if blob.length < limit then throw .outside else throw (.die message)

def flatReadString (inb : Inbuf) : FlatReader CString := do
  let ptr ← get
  let str ← readCString blob ptr inb.limit .prematureEnd
  set (ptr + (str.chars.length + 1))
  flatRealign inb 4
  pure str

/-- The length is an `int`: from 2³¹ on it is negative and no memory is found for it. -/
def flatReadData (inb : Inbuf) (len : ℕ) : FlatReader (List Byte) := do
  if len = 0 then pure []
  else if 2 ^ 31 ≤ len then throw (.die .reallocFailed)
  else
    let d ← flatReadChunk blob inb len
    flatRealign inb 4
    pure d

/-- The offset is an `int`: from 2³¹ on it is below the table. -/
def flatReadStringtable (inb : Inbuf) (offset : ℕ) : FlatReader CString :=
  if 2 ^ 31 ≤ offset then throw (.die (.stringOverrun (offset - 2 ^ 32)))
  else readCString blob (inb.base + offset) inb.limit (.stringOverrun offset)

def flatReadProperty (dtbuf strbuf : Inbuf) (ftfVaralign : Bool) : FlatReader Property := do
  let proplen ← flatReadWord blob dtbuf
  let stroff ← flatReadWord blob dtbuf
  let name ← flatReadStringtable blob strbuf stroff
  (if ftfVaralign && decide (8 ≤ proplen) then flatRealign dtbuf 8 else pure ())
  let val ← flatReadData blob dtbuf proplen
  pure (buildProperty name { val })

/-- The reservations up to one of size 0. -/
def flatReadMemReserve (inb : Inbuf) : ℕ → List ReserveInfo → FlatReader (List ReserveInfo)
  | 0, _ => throw .fuel
  | fuel + 1, reservelist => do
    let re ← flatReadChunk blob inb sizeofReserveEntry
    let address := BitVec.ofNat 64 (ofBytes (re.take 8))
    let size := BitVec.ofNat 64 (ofBytes (re.drop 8))
    if size = 0 then pure reservelist
    else flatReadMemReserve inb fuel (reservelist ++ [⟨address, size⟩])

end Flat

section Unflatten

/-- `"/"` -/
def slash : CString := ⟨[0x2F#8], by decide⟩

/-- A path that continues the path of the parent loses it and, unless that is the root, the
slash behind it. -/
def nodenameFromPath (ppath cpath : CString) : FlatReader CString :=
  if ppath.chars.isPrefixOf cpath.chars then
    let plen := if ppath = slash then ppath.chars.length else ppath.chars.length + 1
    if cpath.chars.length < plen then throw .outside
    else pure ⟨cpath.chars.drop plen, fun h => cpath.noNul (List.mem_of_mem_drop h)⟩
  else throw (.die (.notChild cpath ppath))

variable (blob : List Byte) (dtbuf strbuf : Inbuf) (old : Bool)

/-- `unflatten_tree`, where `old` stands for the flags of the versions below 16. Every tag takes
a unit of fuel. -/
def unflattenTree : ℕ → CString → FlatReader Node
  | 0, _ => throw .fuel
  | fuel + 1, parentFlatname => do
    let flatname ← flatReadString blob dtbuf
    let name ← (if old then nodenameFromPath parentFlatname flatname else pure flatname)
    unflattenBody fuel flatname (buildNode name [] [])
where
  /-- The loop of `unflatten_tree`. -/
  unflattenBody : ℕ → CString → Node → FlatReader Node
    | 0, _, _ => throw .fuel
    | fuel + 1, flatname, node => do
      let val ← flatReadWord blob dtbuf
      if val = fdtProp then
        let prop ← flatReadProperty blob dtbuf strbuf old
        unflattenBody fuel flatname (.mk (addProperty node.info prop) node.children)
      else if val = fdtBeginNode then
        let child ← unflattenTree fuel flatname
        unflattenBody fuel flatname (addChild node child)
      else if val = fdtEndNode then pure node
      else if val = fdtEnd then throw (.die .prematureFdtEnd)
      else if val = fdtNop then unflattenBody fuel flatname node
      else throw (.die (.invalidOpcode val))

end Unflatten

section Blob

/-- A word of the header. A blob that is shorter than the header has been allocated no longer. -/
def headerWord (blob : List Byte) (i : ℕ) : Except Stop ℕ :=
  if blob.length < 4 * i + 4 then throw .outside else pure (ofBytes (slice blob (4 * i) 4))

def check (c : Prop) [Decidable c] (message : Message) : Except Stop Unit :=
  if c then throw (.die message) else pure ()

/-- The first part of `dt_from_blob`: as much of the file as it says. With `totalsize` from 2³¹ + 8
on the number of bytes that are left is negative, and all of the file is read. -/
def readBlob (file : List Byte) : Except Stop (List Byte) := do
  check (file.length < 4) .eofMagic
  let magic := ofBytes (slice file 0 4)
  check (magic ≠ fdtMagic) .badMagic
  check (file.length < 8) .eofSize
  let totalsize := ofBytes (slice file 4 4)
  check (totalsize < 28) (.tooSmall totalsize)
  check (file.length < totalsize) (.eofBlob totalsize)
  if 2 ^ 31 + 8 ≤ totalsize ∧ totalsize < file.length then throw .outside
  else pure (file.take totalsize)

/-- The table of strings, up to the end of the blob in the versions that have no size of it. -/
def initStrbuf (blob : List Byte) (version offStr : ℕ) : Except Stop Inbuf :=
  if 3 ≤ version then do
    let sizeStr ← headerWord blob 8
    check (blob.length < offStr + sizeStr) .stringsSize
    pure ⟨offStr, offStr + sizeStr⟩
  else pure ⟨offStr, blob.length⟩

def checkStructsize (blob : List Byte) (version offDt : ℕ) : Except Stop Unit :=
  if 17 ≤ version then do
    let sizeDt ← headerWord blob 9
    check (blob.length < offDt + sizeDt) .structureSize
  else pure ()

/-- The part behind the checks of the header. -/
def readTree (blob : List Byte) (version bootCpuidPhys : ℕ) (memresvbuf dtbuf strbuf : Inbuf) :
    Except Stop DtInfo := do
  let (reservelist, _) ← (flatReadMemReserve blob memresvbuf blob.length []).run memresvbuf.base
  let (val, ptr) ← (flatReadWord blob dtbuf).run dtbuf.base
  check (val ≠ fdtBeginNode) (.noBeginNode val)
  let (dt, ptr) ← (unflattenTree blob dtbuf strbuf (decide (version < 16)) blob.length .empty).run ptr
  let (val, _) ← (flatReadWord blob dtbuf).run ptr
  check (val ≠ fdtEnd) .noFdtEnd
  pure ⟨dtsfV1, reservelist, BitVec.ofNat 32 bootCpuidPhys, dt⟩

def dtFromBlob (file : List Byte) : Except Stop DtInfo := do
  let blob ← readBlob file
  let offDt ← headerWord blob 2
  let offStr ← headerWord blob 3
  let offMemRsvmap ← headerWord blob 4
  let version ← headerWord blob 5
  let bootCpuidPhys ← headerWord blob 7
  check (blob.length ≤ offMemRsvmap) .reserveOffset
  check (blob.length ≤ offDt) .structureOffset
  check (blob.length < offStr) .stringsOffset
  let strbuf ← initStrbuf blob version offStr
  checkStructsize blob version offDt
  readTree blob version bootCpuidPhys ⟨offMemRsvmap, blob.length⟩ ⟨offDt, blob.length⟩ strbuf

end Blob

end PynqPrio.Dtc
