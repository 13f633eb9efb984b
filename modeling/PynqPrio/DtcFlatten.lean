import PynqPrio.DtcTree

/-!
# Writing a blob

`dt_to_blob` with the binary emitter: the tree as a sequence of tags, each at a multiple of four,
and the names of the properties in a table of strings of their own.
-/
namespace PynqPrio.Dtc
open Formats

section Data

def dataAppendData (d p : List Byte) : List Byte := d ++ p
def dataAppendCell (d : List Byte) (word : ℕ) : List Byte := d ++ toBytes 4 word
def dataAppendRe (d : List Byte) (address size : BitVec 64) : List Byte :=
  d ++ (toBytes 8 address.toNat ++ toBytes 8 size.toNat)
def dataAppendZeroes (d : List Byte) (len : ℕ) : List Byte := d ++ List.replicate len 0#8
def dataAppendAlign (d : List Byte) (a : ℕ) : List Byte := dataAppendZeroes d (align d.length a - d.length)

end Data

section Versions

structure VersionInfo where
  version : ℕ
  lastCompVersion : ℕ
  hdrSize : ℕ
  ftfFullpath : Bool := false
  ftfVaralign : Bool := false
  ftfNameprops : Bool := false
  ftfBootcpuid : Bool := false
  ftfStrtabsize : Bool := false
  ftfStructsize : Bool := false

def versionTable : List VersionInfo := [
  { version := 1, lastCompVersion := 1, hdrSize := 28,
    ftfFullpath := true, ftfVaralign := true, ftfNameprops := true },
  { version := 2, lastCompVersion := 1, hdrSize := 32,
    ftfFullpath := true, ftfVaralign := true, ftfNameprops := true, ftfBootcpuid := true },
  { version := 3, lastCompVersion := 1, hdrSize := 36,
    ftfFullpath := true, ftfVaralign := true, ftfNameprops := true, ftfBootcpuid := true,
    ftfStrtabsize := true },
  { version := 16, lastCompVersion := 16, hdrSize := 36,
    ftfBootcpuid := true, ftfStrtabsize := true },
  { version := 17, lastCompVersion := 16, hdrSize := 40,
    ftfBootcpuid := true, ftfStrtabsize := true, ftfStructsize := true }]

def fdtBeginNode : ℕ := 1
def fdtEndNode : ℕ := 2
def fdtProp : ℕ := 3
def fdtNop : ℕ := 4
def fdtEnd : ℕ := 9

end Versions

section Flatten

structure Bufs where
  dtbuf : List Byte := []
  strbuf : List Byte := []

namespace Bufs

def cell (s : Bufs) (val : ℕ) : Bufs := { s with dtbuf := dataAppendCell s.dtbuf val }
def data (s : Bufs) (d : List Byte) : Bufs := { s with dtbuf := dataAppendData s.dtbuf d }
def align (s : Bufs) (a : ℕ) : Bufs := { s with dtbuf := dataAppendAlign s.dtbuf a }

/-- `bin_emit_string`, where a length of 0 stands for the whole string. -/
def string (s : Bufs) (str : CString) (len : ℕ) : Bufs :=
  s.data ((if len = 0 then str.chars else str.chars.take len) ++ [0#8])

end Bufs

/-- The place of a string in the table, also as the end of a longer one. -/
def findString (str : CString) : List Byte → ℕ → Option ℕ
  | [], _ => none
  | b :: bs, i => if str.bytes.isPrefixOf (b :: bs) then some i else findString str bs (i + 1)

def stringtableInsert (d : List Byte) (str : CString) : ℕ × List Byte :=
  match findString str d 0 with
  | some i => (i, d)
  | none => (d.length, dataAppendData d str.bytes)

/-- `"name"` -/
def nameString : CString := ⟨[0x6E#8, 0x61#8, 0x6D#8, 0x65#8], by decide⟩

/-- A tag with the length and the place of the name, and the value. -/
def flattenProp (vi : VersionInfo) (name : CString) (len : ℕ) (value : Bufs → Bufs) (s : Bufs) : Bufs :=
  let (nameoff, strbuf) := stringtableInsert s.strbuf name
  let s := ((({ s with strbuf } : Bufs).cell fdtProp).cell len).cell nameoff
  let s := if vi.ftfVaralign && decide (8 ≤ len) then s.align 8 else s
  (value s).align 4

def flattenProps (vi : VersionInfo) : List Property → Bufs → Bufs
  | [], s => s
  | prop :: props, s => flattenProps vi props <|
      if prop.deleted then s
      else flattenProp vi prop.name prop.val.val.length (·.data prop.val.val) s

/-- The old versions have the name of the node as a property, unless there is one already. -/
def flattenName (vi : VersionInfo) (info : NodeInfo) (s : Bufs) : Bufs :=
  let seenNameProp := info.proplist.any fun p => !p.deleted && decide (p.name = nameString)
  if vi.ftfNameprops && !seenNameProp then
    flattenProp vi nameString (info.basenamelen + 1) (·.string info.name info.basenamelen) s
  else s

mutual
def flattenTree (vi : VersionInfo) : Node → Bufs → Bufs
  | .mk info children, s =>
    if info.deleted then s else
      let s := s.cell fdtBeginNode
      let s := (s.string (if vi.ftfFullpath then info.fullpath else info.name) 0).align 4
      let s := flattenName vi info (flattenProps vi info.proplist s)
      (flattenChildren vi children s).cell fdtEndNode
def flattenChildren (vi : VersionInfo) : List Node → Bufs → Bufs
  | [], s => s
  | c :: cs, s => flattenChildren vi cs (if c.deleted then s else flattenTree vi c s)
end

end Flatten

section Blob

structure Options where
  reservenum : ℕ := 0
  minsize : ℕ := 0
  padsize : ℕ := 0
  alignsize : ℕ := 0

def flattenReserveList (o : Options) (reservelist : List ReserveInfo) : List Byte :=
  let d := reservelist.foldl (fun d re => dataAppendRe d re.address re.size) []
  (List.range o.reservenum).foldl (fun d _ => dataAppendRe d 0 0) d

structure FdtHeader where
  magic : ℕ
  totalsize : ℕ
  offDtStruct : ℕ
  offDtStrings : ℕ
  offMemRsvmap : ℕ
  version : ℕ
  lastCompVersion : ℕ
  bootCpuidPhys : ℕ
  sizeDtStrings : ℕ
  sizeDtStruct : ℕ

def FdtHeader.bytes (fdt : FdtHeader) : List Byte :=
  [fdt.magic, fdt.totalsize, fdt.offDtStruct, fdt.offDtStrings, fdt.offMemRsvmap, fdt.version,
    fdt.lastCompVersion, fdt.bootCpuidPhys, fdt.sizeDtStrings, fdt.sizeDtStruct].flatMap (toBytes 4)

def fdtMagic : ℕ := 0xd00dfeed

def sizeofReserveEntry : ℕ := 16

def makeFdtHeader (vi : VersionInfo) (reservesize dtsize strsize bootCpuidPhys : ℕ) : FdtHeader :=
  let reservesize := reservesize + sizeofReserveEntry
  let reserveOff := align vi.hdrSize 8
  { magic := fdtMagic
    version := vi.version
    lastCompVersion := vi.lastCompVersion
    offMemRsvmap := reserveOff
    offDtStruct := reserveOff + reservesize
    offDtStrings := reserveOff + reservesize + dtsize
    totalsize := reserveOff + reservesize + dtsize + strsize
    bootCpuidPhys := if vi.ftfBootcpuid then bootCpuidPhys else 0xffffffff
    sizeDtStrings := if vi.ftfStrtabsize then strsize else 0xffffffff
    sizeDtStruct := if vi.ftfStructsize then dtsize else 0xffffffff }

/-- The bytes behind a blob of a size. The alignment is a power of two. -/
def padLen (o : Options) (totalsize : ℕ) : ℕ :=
  let padlen := if 0 < o.minsize then o.minsize - totalsize else 0
  let padlen := if 0 < o.padsize then o.padsize else padlen
  if 0 < o.alignsize then align (totalsize + padlen) o.alignsize - totalsize else padlen

/-- The blob of a version of the table. -/
def assembleBlob (o : Options) (dti : DtInfo) (vi : VersionInfo) : List Byte :=
  let bufs := (flattenTree vi dti.dt {}).cell fdtEnd
  let reservebuf := flattenReserveList o dti.reservelist
  let fdt := makeFdtHeader vi reservebuf.length bufs.dtbuf.length bufs.strbuf.length
    dti.bootCpuidPhys.toNat
  let padlen := padLen o fdt.totalsize
  let fdt := { fdt with totalsize := fdt.totalsize + padlen }
  let blob := dataAppendData [] (fdt.bytes.take vi.hdrSize)
  let blob := dataAppendAlign blob 8
  let blob := dataAppendData blob reservebuf
  let blob := dataAppendZeroes blob sizeofReserveEntry
  let blob := dataAppendData blob bufs.dtbuf
  let blob := dataAppendData blob bufs.strbuf
  dataAppendZeroes blob padlen

def findVersion (version : ℕ) : Option VersionInfo :=
  versionTable.foldl (fun vi row => if row.version = version then some row else vi) none

/-- `dt_to_blob` dies if it does not know the version. -/
def dtToBlob (o : Options) (dti : DtInfo) (version : ℕ) : Option (List Byte) :=
  (findVersion version).map (assembleBlob o dti)

end Blob

end PynqPrio.Dtc
