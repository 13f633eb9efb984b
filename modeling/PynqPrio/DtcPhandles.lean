import PynqPrio.DtcFlatten
import PynqPrio.DtcPositions
import PynqPrio.FdtRead

/-!
# Handles

A reference in a cell of a source becomes the handle of the node that it refers to. A handle is
a number that a node has by a property of its own, or that `dtc` makes up for it. The two checks
that see to it visit the nodes one after the other.
-/
namespace PynqPrio.Dtc
open Formats
open Libfdt (phandleString linuxPhandleString)

section Model

/-- How a check does not come to its end: an assertion fails, a pointer leads nowhere, or the search
for a handle has no end. -/
inductive CheckFault
  | assertion
  | pointer
  | fuel

structure CheckOptions where
  /-- `PHANDLE_LEGACY` is set in `phandle_format`. -/
  legacy : Bool
  /-- `PHANDLE_EPAPR` is set in `phandle_format`. -/
  epapr : Bool
  /-- `DTSF_PLUGIN` is set in the flags of the source. -/
  plugin : Bool

/-- The tree with the counter that `get_node_phandle` keeps, and whether the check has failed. -/
structure CheckState where
  tree : Node
  nextPhandle : BitVec 32
  failed : Bool

mutual
def getNodeByPhandle (phandle : BitVec 32) : Node → Option (List ℕ)
  | .mk info children =>
    if info.phandle = phandle then if info.deleted then none else some []
    else childByPhandle phandle children 0
def childByPhandle (phandle : BitVec 32) : List Node → ℕ → Option (List ℕ)
  | [], _ => none
  | c :: cs, i =>
    if c.deleted then childByPhandle phandle cs (i + 1)
    else match getNodeByPhandle phandle c with
      | some pos => some (i :: pos)
      | none => childByPhandle phandle cs (i + 1)
end

/-- The loop of `get_node_phandle` with the assertion of `get_node_by_phandle`. -/
def freePhandle (root : Node) : ℕ → BitVec 32 → Except CheckFault (BitVec 32)
  | 0, _ => throw .fuel
  | fuel + 1, phandle =>
    if phandle = 0 ∨ phandle = 0xFFFFFFFF#32 then throw .assertion
    else if (getNodeByPhandle phandle root).isSome then freePhandle root fuel (phandle + 1)
    else pure phandle

def addPhandleProperty (wanted : Bool) (name : CString) (phandle : BitVec 32) (info : NodeInfo) : NodeInfo :=
  if (propOf name info.proplist).isNone && wanted then
    addProperty info (buildProperty name { val := dataAppendCell [] phandle.toNat })
  else info

def setPhandle (o : CheckOptions) (phandle : BitVec 32) (info : NodeInfo) : NodeInfo :=
  addPhandleProperty o.epapr phandleString phandle
    (addPhandleProperty o.legacy linuxPhandleString phandle { info with phandle })

def getNodePhandle (o : CheckOptions) (s : CheckState) (pos : List ℕ) :
    Except CheckFault (BitVec 32 × CheckState) :=
  match infoAt pos s.tree with
  | none => throw .pointer
  | some info =>
    if info.phandle ≠ 0 ∧ info.phandle ≠ 0xFFFFFFFF#32 then pure (info.phandle, s)
    else do
      let phandle ← freePhandle s.tree ((livePositions s.tree).length + 1) s.nextPhandle
      pure (phandle, { s with
        tree := updateInfoAt pos (setPhandle o phandle) s.tree
        nextPhandle := phandle })

def checkNodesProps (fn : CheckState → List ℕ → Except CheckFault CheckState) (s : CheckState) :
    Except CheckFault CheckState := (livePositions s.tree).foldlM fn s

/-- The value of a property of the node, and whether the check fails. -/
def checkPhandleProp (tree : Node) (pos : List ℕ) (info : NodeInfo) (propname : CString) :
    Except CheckFault (BitVec 32 × Bool) :=
  match propOf propname info.proplist with
  | none => pure (0, false)
  | some prop =>
    if prop.val.val.length ≠ 4 then pure (0, true)
    else match prop.val.markers.find? (·.type = .refPhandle) with
      | some m => if m.offset ≠ 0 then throw .assertion else pure (0, getNodeByRef tree m.ref ≠ some pos)
      | none =>
        let phandle := BitVec.ofNat 32 (ofBytes prop.val.val)
        if phandle = 0 ∨ phandle = 0xFFFFFFFF#32 then pure (0, true) else pure (phandle, false)

def checkExplicitPhandles (s : CheckState) (pos : List ℕ) : Except CheckFault CheckState :=
  match infoAt pos s.tree with
  | none => throw .pointer
  | some info =>
    if info.phandle ≠ 0 then throw .assertion
    else do
      let (phandle, bad) ← checkPhandleProp s.tree pos info phandleString
      let (linuxPhandle, linuxBad) ← checkPhandleProp s.tree pos info linuxPhandleString
      if phandle = 0 ∧ linuxPhandle = 0 then pure { s with failed := s.failed || bad || linuxBad }
      else
        let mismatch := linuxPhandle ≠ 0 ∧ phandle ≠ 0 ∧ phandle ≠ linuxPhandle
        let chosen := if phandle = 0 then linuxPhandle else phandle
        let failed := s.failed || bad || linuxBad || mismatch
        if (getNodeByPhandle chosen s.tree).any (· ≠ pos) then pure { s with failed := true }
        else pure { s with tree := updateInfoAt pos (fun info => { info with phandle := chosen }) s.tree, failed }

def propAt (pos : List ℕ) (k : ℕ) (t : Node) : Option Property := (infoAt pos t).bind (·.proplist[k]?)

/-- A cell of the value of the property with the number `k`. -/
def storeCell (k offset v : ℕ) (info : NodeInfo) : NodeInfo :=
  { info with proplist := info.proplist.modify k fun p =>
      { p with val := { p.val with val := overwrite p.val.val offset (toBytes 4 v) } } }

def fixupMarker (o : CheckOptions) (pos : List ℕ) (k : ℕ) (s : CheckState) (m : Marker) :
    Except CheckFault CheckState :=
  if m.type ≠ .refPhandle then pure s
  else match propAt pos k s.tree with
    | none => throw .pointer
    | some prop =>
      if prop.val.val.length < m.offset + 4 then throw .assertion
      else match getNodeByRef s.tree m.ref with
        | none =>
          -- a plugin keeps the entry for whoever loads it
          if o.plugin then
            pure { s with tree := updateInfoAt pos (storeCell k m.offset (2 ^ 32 - 1)) s.tree }
          else pure { s with failed := true }
        | some target => do
          let (phandle, s) ← getNodePhandle o s target
          pure { s with tree := updateInfoAt pos (storeCell k m.offset phandle.toNat) s.tree }

def fixupProperty (o : CheckOptions) (pos : List ℕ) (s : CheckState) (k : ℕ) : Except CheckFault CheckState :=
  match propAt pos k s.tree with
  | none => throw .pointer
  | some prop => if prop.deleted then pure s else prop.val.markers.foldlM (fixupMarker o pos k) s

/-- The properties that a node gets while it is visited have no markers. -/
def fixupPhandleReferences (o : CheckOptions) (s : CheckState) (pos : List ℕ) : Except CheckFault CheckState :=
  match infoAt pos s.tree with
  | none => throw .pointer
  | some info => (List.range info.proplist.length).foldlM (fixupProperty o pos) s

end Model

end PynqPrio.Dtc
