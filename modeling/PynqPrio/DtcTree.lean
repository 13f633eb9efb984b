import PynqPrio.ByteStrings
import PynqPrio.KeyedLists

/-!
# Live trees of the device tree compiler

The tree that `dtc` builds from a source and works on. Properties, nodes and labels that have
been deleted stay in their lists with a mark, so that a later definition can bring them back.
-/
namespace PynqPrio.Dtc
open Formats Stores

inductive MarkerType
  | refPhandle | refPath | label
deriving DecidableEq

/-- A reference or a label in the value of a property. -/
structure Marker where
  type : MarkerType
  offset : ℕ
  ref : CString
deriving DecidableEq

structure Data where
  val : List Byte := []
  markers : List Marker := []
deriving DecidableEq

structure Label where
  deleted : Bool := false
  label : CString
deriving DecidableEq

structure Property where
  deleted : Bool := false
  name : CString
  val : Data := {}
  labels : List Label := []
deriving DecidableEq

/-- A node without its children. An empty `fullpath` stands for `NULL`. -/
structure NodeInfo where
  deleted : Bool := false
  name : CString := .empty
  proplist : List Property := []
  fullpath : CString := .empty
  basenamelen : ℕ := 0
  phandle : BitVec 32 := 0
  labels : List Label := []
deriving DecidableEq

inductive Node where
  | mk (info : NodeInfo) (children : List Node)

namespace Node

def info : Node → NodeInfo
  | mk info _ => info

def children : Node → List Node
  | mk _ children => children

abbrev deleted (n : Node) : Bool := n.info.deleted
abbrev name (n : Node) : CString := n.info.name
abbrev proplist (n : Node) : List Property := n.info.proplist

@[simp] theorem info_mk (info : NodeInfo) (children : List Node) : (mk info children).info = info := rfl
@[simp] theorem children_mk (info : NodeInfo) (children : List Node) :
    (mk info children).children = children := rfl
@[simp] theorem mk_info_children (n : Node) : mk n.info n.children = n := by
  cases n
  rfl

/-- Induction on a tree: a node has what all its children have. -/
@[elab_as_elim, induction_eliminator]
theorem induct {motive : Node → Prop}
    (mk : ∀ info children, (∀ c ∈ children, motive c) → motive (mk info children)) (n : Node) :
    motive n :=
  Node.rec (motive_1 := motive) (motive_2 := fun l => ∀ c ∈ l, motive c) mk
    (fun _ h => absurd h List.not_mem_nil)
    (fun _ _ hhead htail c hc => (List.mem_cons.mp hc).elim (fun h => h ▸ hhead) (htail c)) n

end Node

section Building

def addLabel (labels : List Label) (label : CString) : List Label :=
  (updateFirst (·.label = label) ({ · with deleted := false }) labels).getD ({ label } :: labels)

def deleteLabels (labels : List Label) : List Label := labels.map ({ · with deleted := true })

def buildProperty (name : CString) (val : Data) : Property := { name, val }

def addProperty (node : NodeInfo) (prop : Property) : NodeInfo :=
  { node with proplist := node.proplist ++ [prop] }

def deleteProperty (prop : Property) : Property :=
  { prop with deleted := true, labels := deleteLabels prop.labels }

/-- `name_node` of `build_node`. -/
def buildNode (name : CString) (proplist : List Property) (children : List Node) : Node :=
  .mk { name, proplist } children

/-- `name_node` of `build_node_delete`. -/
def buildNodeDelete (name : CString) : Node := .mk { name, deleted := true } []

def addChild (parent child : Node) : Node := .mk parent.info (parent.children ++ [child])

mutual
def deleteNode : Node → Node
  | .mk info children => .mk { info with
      deleted := true
      proplist := info.proplist.map fun p => if p.deleted then p else deleteProperty p
      labels := deleteLabels info.labels } (deleteChildren children)
def deleteChildren : List Node → List Node
  | [] => []
  | c :: cs => (if c.deleted then c else deleteNode c) :: deleteChildren cs
end

end Building

section Paths

/-- `join_path` puts a slash between the path and the name unless the path ends with one. -/
def joinPath (path name : CString) : CString where
  chars := path.chars ++ (if path.chars.getLast? = some 0x2F#8 then [] else [0x2F#8]) ++ name.chars
  noNul := by
    have hpath := path.noNul
    have hname := name.noNul
    split <;> simp [hpath, hname]

theorem chars_joinPath (path name : CString) : (joinPath path name).chars =
    path.chars ++ (if path.chars.getLast? = some 0x2F#8 then [] else [0x2F#8]) ++ name.chars := rfl

/-- The length of the name up to the `@`. -/
def unitPosition (name : CString) : ℕ := (name.chars.takeWhile (· ≠ 0x40#8)).length

mutual
def fillFullpaths : Node → CString → Node
  | .mk info children, pre =>
    let fullpath := joinPath pre info.name
    .mk { info with fullpath, basenamelen := unitPosition info.name } (fillChildren children fullpath)
def fillChildren : List Node → CString → List Node
  | [], _ => []
  | c :: cs, pre => (if c.deleted then c else fillFullpaths c pre) :: fillChildren cs pre
end

end Paths

section Visible

/-- What a blob holds of a tree: neither marks, labels nor what `dtc` works out for itself. -/
def visibleProps (proplist : List Property) : List Property :=
  (proplist.filter (!·.deleted)).map fun p => buildProperty p.name { val := p.val.val }

theorem visibleProps_cons (p : Property) (props : List Property) : visibleProps (p :: props) =
    if p.deleted then visibleProps props
    else buildProperty p.name { val := p.val.val } :: visibleProps props := by
  cases hdel : p.deleted <;> simp [visibleProps, hdel]

mutual
def visible : Node → Node
  | .mk info children => buildNode info.name (visibleProps info.proplist) (visibleChildren children)
def visibleChildren : List Node → List Node
  | [] => []
  | c :: cs => if c.deleted then visibleChildren cs else visible c :: visibleChildren cs
end

end Visible

structure ReserveInfo where
  address : BitVec 64
  size : BitVec 64
deriving DecidableEq

structure DtInfo where
  dtsflags : BitVec 32
  reservelist : List ReserveInfo
  bootCpuidPhys : BitVec 32
  dt : Node

def dtsfV1 : BitVec 32 := 1

end PynqPrio.Dtc
