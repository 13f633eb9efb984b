import PynqPrio.FdtTags
import PynqPrio.DtcTree

/-!
# Looking things up in a blob

A walk that counts how deep it is visits the children of a node and skips what is below them. So
a lookup by name or by path in the tags of a tree finds what the tree has there.
-/
namespace PynqPrio.Libfdt
open Formats Dtc

section Trees

mutual
def tagsOf : Node → List Tag
  | .mk info children =>
    .beginNode info.name :: (info.proplist.map (fun p => .prop p.name p.val.val) ++
      (tagsOfChildren children ++ [.endNode]))
def tagsOfChildren : List Node → List Tag
  | [] => []
  | c :: cs => tagsOf c ++ tagsOfChildren cs
end

/-- What a name is looked up by: all of it, or the part in front of the unit address. -/
def nameMatches (s : List Byte) (name : CString) : Bool :=
  name.chars = s || !s.contains 0x40#8 && (s ++ [0x40#8]).isPrefixOf name.chars

def childNamed (s : List Byte) (children : List Node) : Option Node :=
  children.find? fun c => nameMatches s c.name

theorem childNamed_cons (s : List Byte) (c : Node) (cs : List Node) : childNamed s (c :: cs) =
    if nameMatches s c.name then some c else childNamed s cs := by
  rw [childNamed, List.find?_cons]
  cases nameMatches s c.name <;> rfl

def NodeAt (fdt : Fdt) (n off : ℕ) (t : Node) : Prop := ∃ off', Chain fdt n off (tagsOf t) off'

end Trees

section Names

variable {fdt : Fdt} {n off off' : ℕ} {s : List Byte}

theorem take_eq_iff {chars post : List Byte} (hs : 0#8 ∉ s) :
    (chars ++ 0#8 :: post).take s.length = s ↔ s <+: chars := by
  rw [← List.prefix_iff_eq_take.trans eq_comm]
  constructor
  · intro h
    refine List.prefix_of_prefix_length_le h (List.prefix_append _ _) (Nat.le_of_not_lt fun hlt => hs ?_)
    obtain ⟨r, hr⟩ := List.prefix_of_prefix_length_le (List.prefix_append chars (0#8 :: post)) h hlt.le
    subst hr
    obtain ⟨t, ht⟩ := h
    rw [List.append_assoc, List.append_cancel_left_eq] at ht
    cases r with
    | nil => simp at hlt
    | cons b r =>
      rw [List.cons_append, List.cons.injEq] at ht
      simp [ht.1]
  · exact fun h => h.trans (List.prefix_append _ _)

/-- The byte behind what is compared tells whether the name goes on. -/
theorem nameMatches_of_bytes {name : CString} {post : List Byte} (hs : 0#8 ∉ s) :
    (if (name.chars ++ 0#8 :: post).take s.length ≠ s then false
      else decide (((name.chars ++ 0#8 :: post).take (s.length + 1)).drop s.length = [0#8]) ||
        !s.contains 0x40#8 &&
          decide (((name.chars ++ 0#8 :: post).take (s.length + 1)).drop s.length = [0x40#8])) =
      nameMatches s name := by
  have hnoNul := name.noNul
  rw [nameMatches]
  by_cases hpre : s <+: name.chars
  · obtain ⟨r, hr⟩ := hpre
    rw [← hr] at hnoNul ⊢
    have htake : (s ++ r ++ 0#8 :: post).take s.length = s := by simp
    have hlast : ((s ++ r ++ 0#8 :: post).take (s.length + 1)).drop s.length = (r ++ [0#8]).take 1 := by
      cases r <;> simp [List.take_append]
    rw [if_neg (not_not.mpr htake), hlast]
    cases r with
    | nil => simp
    | cons b r =>
      have hb : b ≠ 0#8 := fun h => hnoNul (by simp [h])
      have hne : s ++ b :: r ≠ s := by simp
      have hat : (s ++ [0x40#8]).isPrefixOf (s ++ b :: r) = decide (b = 0x40#8) := by
        rw [Bool.eq_iff_iff, List.isPrefixOf_iff_prefix, decide_eq_true_iff, List.prefix_append_right_inj]
        simp [eq_comm]
      rw [hat]
      simp [hb, hne]
  · have htake : ¬(name.chars ++ 0#8 :: post).take s.length = s := fun h => hpre ((take_eq_iff hs).mp h)
    have hne : name.chars ≠ s := fun h => hpre (h ▸ List.prefix_rfl)
    have hat : (s ++ [0x40#8]).isPrefixOf name.chars = false := by
      rw [Bool.eq_false_iff, Ne, List.isPrefixOf_iff_prefix]
      exact fun h => hpre ((List.prefix_append _ _).trans h)
    rw [if_pos htake, hat]
    simp [hne]

theorem nameMatches_of_lt {name : CString} (hlen : name.chars.length < s.length) :
    nameMatches s name = false := by
  have hne : name.chars ≠ s := fun h => by rw [h] at hlen; omega
  have hat : (s ++ [0x40#8]).isPrefixOf name.chars = false := by
    rw [Bool.eq_false_iff, Ne, List.isPrefixOf_iff_prefix]
    intro h
    have hle := h.length_le
    rw [List.length_append] at hle
    omega
  rw [nameMatches, hat]
  simp [hne]

theorem nodenameEq_of_tagAt (h : Extent fdt n) {name : CString}
    (htag : TagAt fdt n off (.beginNode name) off') (hs : 0#8 ∉ s) (hlen : s.length < 2 ^ 31) :
    nodenameEq fdt off s = .ok (nameMatches s name) := by
  obtain ⟨hle, hlimit, -⟩ := htag.lt
  cases htag with
  | beginNode haligned hplace hnext hlimit =>
    have hstruct := h.struct
    have hsmall := h.small
    have hright := hplace.right
    rw [length_toBytes, Nat.add_assoc] at hright
    obtain ⟨pre, post, hpre, hbytes⟩ := hright
    rw [CString.bytes, List.append_assoc, List.singleton_append] at hbytes
    have hslice : slice fdt.bytes (fdt.offDtStruct + (off + 4)) (s.length + 1) =
        (name.chars ++ 0#8 :: post).take (s.length + 1) := by
      rw [slice, hbytes, ← hpre, List.drop_left]
    have hmemory := h.memory
    have hnameLen := CString.length_bytes name
    have halign := le_align (a := 4) (by decide) (off + 4 + name.bytes.length)
    rw [nodenameEq, show ((off : ℕ) : ℤ) + 4 = ((off + 4 : ℕ) : ℤ) from rfl]
    cases hptr : fdtOffsetPtr fdt ((off + 4 : ℕ) : ℤ) (s.length + 1) with
    | none =>
      -- the blob ends before so many bytes, and so does the name
      have hlong : name.chars.length < s.length := by
        refine Nat.lt_of_not_le fun hshort => ?_
        have hsome : fdtOffsetPtr fdt ((off + 4 : ℕ) : ℤ) (s.length + 1) = some _ :=
          fdtOffsetPtr_of_le h (by omega)
        rw [hptr] at hsome
        cases hsome
      rw [nameMatches_of_lt hlong]
      rfl
    | some p =>
      have hp := fdtOffsetPtr_eq (by omega) hptr
      have hpLe := fdtOffsetPtr_le (by omega) hptr
      subst hp
      have hload : loadBytes fdt (fdt.offDtStruct + (off + 4)) (s.length + 1) =
          .ok ((name.chars ++ 0#8 :: post).take (s.length + 1)) := by
        rw [loadBytes, if_neg (by omega), hslice]
        rfl
      have htake : ((name.chars ++ 0#8 :: post).take (s.length + 1)).take s.length =
          (name.chars ++ 0#8 :: post).take s.length := by
        rw [List.take_take, Nat.min_eq_left (Nat.le_succ _)]
      rw [← nameMatches_of_bytes hs]
      simp only [hload, bind, Except.bind, htake]
      exact (apply_ite pure _ _ _).symm

end Names

section Loop

variable {fdt : Fdt} {n off off' fuel : ℕ} {depth : Option ℤ} {d : ℤ}

theorem nextNodeLoop_prop (h : Extent fdt n) {name : CString} {val : List Byte}
    (htag : TagAt fdt n off (.prop name val) off') :
    nextNodeLoop fdt (fuel + 1) off depth = nextNodeLoop fdt fuel off' depth := by
  rw [nextNodeLoop]
  simp only [fdtNextTag_of_tagAt h htag, bind, Except.bind]
  rfl

theorem nextNodeLoop_begin (h : Extent fdt n) {name : CString}
    (htag : TagAt fdt n off (.beginNode name) off') :
    nextNodeLoop fdt (fuel + 1) off depth = .ok ((off : ℤ), depth.map (· + 1)) := by
  rw [nextNodeLoop]
  simp only [fdtNextTag_of_tagAt h htag, bind, Except.bind]
  rfl

theorem nextNodeLoop_end (h : Extent fdt n) (htag : TagAt fdt n off .endNode off') :
    nextNodeLoop fdt (fuel + 1) off (some d) =
      if d - 1 < 0 then .ok ((off' : ℤ), some (d - 1)) else nextNodeLoop fdt fuel off' (some (d - 1)) := by
  rw [nextNodeLoop]
  simp only [fdtNextTag_of_tagAt h htag, bind, Except.bind]
  rfl

end Loop

section Checks

variable {fdt : Fdt} {n off off' : ℕ}

theorem checkOffset_of_tagAt (h : Extent fdt n) {tag : Tag} (htag : TagAt fdt n off tag off') :
    fdtCheckOffset fdt tag.code off = .ok (off' : ℤ) := by
  obtain ⟨-, -, hdvd, -⟩ := htag.lt
  rw [fdtCheckOffset, if_neg (by omega)]
  simp only [fdtNextTag_of_tagAt h htag, bind, Except.bind]
  exact congrArg Except.ok (if_pos trivial)

theorem checkNodeOffset_of_tagAt (h : Extent fdt n) {name : CString}
    (htag : TagAt fdt n off (.beginNode name) off') : fdtCheckNodeOffset fdt off = .ok (off' : ℤ) :=
  checkOffset_of_tagAt h htag

end Checks

section Search

variable {fdt : Fdt} {n off off' : ℕ} {s : List Byte} {d res : ℤ}

/-- The fuel lasts to the end of the structure block. -/
def Enough (n off fuel : ℕ) : Prop := n < off + 4 * fuel

theorem enough_fuel (h : Extent fdt n) (off : ℕ) : Enough n off fdt.fuel := by
  have hstruct := h.struct
  have hmemory := h.memory
  rw [Enough, Fdt.fuel]
  omega

theorem Enough.next {fuel : ℕ} (h : Enough n off fuel) {tag : Tag} (htag : TagAt fdt n off tag off') :
    ∃ k, fuel = k + 1 ∧ Enough n off' k := by
  obtain ⟨hle, hlimit, -⟩ := htag.lt
  rw [Enough] at h
  refine ⟨fuel - 1, by omega, ?_⟩
  rw [Enough]
  omega

theorem Enough.mono {fuel : ℕ} (h : Enough n off fuel) {tag : Tag} (htag : TagAt fdt n off tag off') :
    Enough n off' fuel := by
  obtain ⟨hle, -⟩ := htag.lt
  rw [Enough] at h ⊢
  omega

/-- The loop of `fdt_subnode_offset_namelen` behind a step with the result `x`. -/
def searchOn (fdt : Fdt) (s : List Byte) (outer : ℕ) (d : ℤ) (x : Access (ℤ × Option ℤ)) : Access ℤ := do
  let (offset, depth) ← x
  subnodeLoop fdt s outer offset (depth.getD d)

/-- Where the loop comes to with the tag at `off` the next one, at a depth of `d`. -/
def Finds (fdt : Fdt) (n : ℕ) (s : List Byte) (off : ℕ) (d res : ℤ) : Prop :=
  ∀ outer inner e, Enough n off outer → Enough n off inner →
    searchOn fdt s outer e (nextNodeLoop fdt inner off (some d)) = .ok res

theorem finds_prop (h : Extent fdt n) {name : CString} {val : List Byte}
    (htag : TagAt fdt n off (.prop name val) off') (hrest : Finds fdt n s off' d res) :
    Finds fdt n s off d res := by
  intro outer inner e houter hinner
  obtain ⟨k, rfl, hk⟩ := hinner.next htag
  rw [nextNodeLoop_prop h htag]
  exact hrest _ _ e (houter.mono htag) hk

theorem finds_end (h : Extent fdt n) (htag : TagAt fdt n off .endNode off') (hd : 1 ≤ d)
    (hrest : Finds fdt n s off' (d - 1) res) : Finds fdt n s off d res := by
  intro outer inner e houter hinner
  obtain ⟨k, rfl, hk⟩ := hinner.next htag
  rw [nextNodeLoop_end h htag, if_neg (by omega)]
  exact hrest _ _ e (houter.mono htag) hk

/-- Behind the last child nothing is found. -/
theorem finds_end_zero (h : Extent fdt n) (htag : TagAt fdt n off .endNode off') :
    Finds fdt n s off 0 (-errNotfound) := by
  intro outer inner e houter hinner
  obtain ⟨k, rfl, -⟩ := hinner.next htag
  obtain ⟨l, rfl, -⟩ := houter.next htag
  rw [nextNodeLoop_end h htag, if_pos (by decide)]
  rfl

/-- A node that the loop comes to is compared at depth 1 and passed otherwise. -/
theorem finds_begin (h : Extent fdt n) {name : CString} (htag : TagAt fdt n off (.beginNode name) off')
    (hd : 0 ≤ d) (hpass : d = 0 → nodenameEq fdt off s = .ok false)
    (hrest : Finds fdt n s off' (d + 1) res) : Finds fdt n s off d res := by
  intro outer inner e houter hinner
  obtain ⟨k, rfl, -⟩ := hinner.next htag
  obtain ⟨l, rfl, hl⟩ := houter.next htag
  have hcompare : (if d + 1 = 1 then nodenameEq fdt off s else pure false) = .ok false := by
    by_cases hzero : d = 0
    · rw [if_pos (by omega), hpass hzero]
    · rw [if_neg (by omega)]
      rfl
  have hcheck := checkNodeOffset_of_tagAt h htag
  have hstep : fdtNextNode fdt off (some (d + 1)) = nextNodeLoop fdt fdt.fuel off' (some (d + 1)) := by
    rw [fdtNextNode, if_pos (Int.natCast_nonneg off)]
    simp only [hcheck, bind, Except.bind]
    exact if_neg (by omega)
  rw [nextNodeLoop_begin h htag]
  change subnodeLoop fdt s (l + 1) off (d + 1) = _
  rw [subnodeLoop, if_pos ⟨Int.natCast_nonneg off, by omega⟩, hstep]
  simp only [hcompare]
  exact hrest l fdt.fuel (d + 1) hl (enough_fuel h off')

/-- A child that the name matches ends the loop. -/
theorem finds_here (h : Extent fdt n) {name : CString} (htag : TagAt fdt n off (.beginNode name) off')
    (heq : nodenameEq fdt off s = .ok true) : Finds fdt n s off 0 (off : ℕ) := by
  intro outer inner e houter hinner
  obtain ⟨k, rfl, -⟩ := hinner.next htag
  obtain ⟨l, rfl, -⟩ := houter.next htag
  rw [nextNodeLoop_begin h htag]
  change subnodeLoop fdt s (l + 1) off (0 + 1) = _
  rw [subnodeLoop, if_pos ⟨Int.natCast_nonneg off, by decide⟩, if_pos (by decide), heq]
  rfl

theorem finds_props (h : Extent fdt n) {props : List Property}
    (hprops : Chain fdt n off (props.map fun p => .prop p.name p.val.val) off')
    (hrest : Finds fdt n s off' d res) : Finds fdt n s off d res := by
  induction props generalizing off with
  | nil =>
    cases hprops
    exact hrest
  | cons p props ih =>
    cases hprops with
    | cons htag hprops => exact finds_prop h htag (ih hprops)

/-- The loop passes the tags of a tree that it is not at the right depth for. -/
def Passes (fdt : Fdt) (n : ℕ) (s : List Byte) (t : Node) : Prop :=
  ∀ (off off' : ℕ) (d res : ℤ), 1 ≤ d → Chain fdt n off (tagsOf t) off' → Finds fdt n s off' d res →
    Finds fdt n s off d res

theorem finds_forest (children : List Node) (hpass : ∀ c ∈ children, Passes fdt n s c) (hd : 1 ≤ d)
    (hchildren : Chain fdt n off (tagsOfChildren children) off') (hrest : Finds fdt n s off' d res) :
    Finds fdt n s off d res := by
  induction children generalizing off with
  | nil =>
    rw [tagsOfChildren] at hchildren
    cases hchildren
    exact hrest
  | cons c cs ih =>
    rw [tagsOfChildren] at hchildren
    obtain ⟨mid, hc, hcs⟩ := chain_append.mp hchildren
    have htail := ih (fun c hc => hpass c (List.mem_cons_of_mem _ hc)) hcs
    exact hpass c List.mem_cons_self off mid d res hd hc htail

/-- A node that is passed is passed with all that is below it. -/
theorem finds_node (h : Extent fdt n) {info : NodeInfo} {children : List Node}
    (hpass : ∀ c ∈ children, Passes fdt n s c) (hd : 0 ≤ d)
    (hname : d = 0 → nodenameEq fdt off s = .ok false)
    (ht : Chain fdt n off (tagsOf (.mk info children)) off') (hrest : Finds fdt n s off' d res) :
    Finds fdt n s off d res := by
  rw [tagsOf] at ht
  cases ht with
  | cons hbegin ht =>
    obtain ⟨mid, hprops, ht⟩ := chain_append.mp ht
    obtain ⟨mid', hchildren, ht⟩ := chain_append.mp ht
    have hend := finds_end h (chain_singleton.mp ht) (show 1 ≤ d + 1 by omega)
      (by rw [Int.add_sub_cancel]; exact hrest)
    exact finds_begin h hbegin hd hname (finds_props h hprops
      (finds_forest children hpass (by omega) hchildren hend))

theorem passes (h : Extent fdt n) (t : Node) : Passes fdt n s t := by
  induction t with
  | mk info children ih =>
    intro off off' d res hd ht hrest
    exact finds_node h ih (by omega) (by omega) ht hrest

/-- The children of a node, and the first of them that the name matches. -/
theorem finds_children (h : Extent fdt n) (hs : 0#8 ∉ s) (hlen : s.length < 2 ^ 31) (children : List Node)
    (hchildren : Chain fdt n off (tagsOfChildren children ++ [.endNode]) off') :
    match childNamed s children with
    | some c => ∃ p, Finds fdt n s off 0 (p : ℕ) ∧ NodeAt fdt n p c
    | none => Finds fdt n s off 0 (-errNotfound) := by
  induction children generalizing off with
  | nil => exact finds_end_zero h (chain_singleton.mp hchildren)
  | cons c cs ih =>
    rw [tagsOfChildren, List.append_assoc] at hchildren
    obtain ⟨mid, hc, hcs⟩ := chain_append.mp hchildren
    obtain ⟨info, below⟩ := c
    have hbegin := hc
    rw [tagsOf] at hbegin
    cases hbegin with
    | cons hbegin _ =>
      have heq := nodenameEq_of_tagAt h hbegin hs hlen
      rw [childNamed_cons]
      cases hmatch : nameMatches s info.name with
      | true =>
        rw [Node.name, Node.info_mk, if_pos hmatch]
        rw [hmatch] at heq
        exact ⟨off, finds_here h hbegin heq, mid, hc⟩
      | false =>
        rw [Node.name, Node.info_mk, if_neg (Bool.eq_false_iff.mp hmatch)]
        rw [hmatch] at heq
        have hskip : ∀ {res}, Finds fdt n s mid 0 res → Finds fdt n s off 0 res :=
          fun hrest => finds_node h (fun c _ => passes h c) le_rfl (fun _ => heq) hc hrest
        have hrest := ih hcs
        split at hrest
        · obtain ⟨p, hp, hnode⟩ := hrest
          exact ⟨p, hskip hp, hnode⟩
        · exact hskip hrest

end Search

section Paths

variable {fdt : Fdt} {n off : ℕ} {s path : List Byte} {t : Node}

theorem fdtSubnodeOffset_of_nodeAt (h : Extent fdt n) (hheader : fdtCheckHeader fdt = 0) (hs : 0#8 ∉ s)
    (hlen : s.length < 2 ^ 31) (ht : NodeAt fdt n off t) :
    match childNamed s t.children with
    | some c => ∃ p, fdtSubnodeOffsetNamelen fdt off s = .ok (p : ℕ) ∧ NodeAt fdt n p c
    | none => fdtSubnodeOffsetNamelen fdt off s = .ok (-errNotfound) := by
  obtain ⟨info, children⟩ := t
  obtain ⟨off', ht⟩ := ht
  rw [tagsOf] at ht
  cases ht with
  | @cons _ mid _ _ _ hbegin ht =>
    obtain ⟨mid', hprops, hchildren⟩ := chain_append.mp ht
    obtain ⟨k, hk, henough⟩ := (enough_fuel h off).next hbegin
    have hstart : ∀ res, Finds fdt n s mid 0 res → fdtSubnodeOffsetNamelen fdt off s = .ok res := by
      intro res hres
      have hstep : fdtNextNode fdt off (some 0) = nextNodeLoop fdt fdt.fuel mid (some 0) := by
        rw [fdtNextNode, if_pos (Int.natCast_nonneg off)]
        simp only [checkNodeOffset_of_tagAt h hbegin, bind, Except.bind]
        exact if_neg (by omega)
      rw [fdtSubnodeOffsetNamelen, if_neg (not_not.mpr hheader), hk, subnodeLoop,
        if_pos ⟨Int.natCast_nonneg off, le_rfl⟩, if_neg (by decide), hstep]
      exact hres k fdt.fuel 0 henough (enough_fuel h mid)
    have hfind := finds_children h hs hlen children hchildren
    rw [Node.children_mk]
    split at hfind
    · obtain ⟨p, hp, hnode⟩ := hfind
      exact ⟨p, hstart _ (finds_props h hprops hp), hnode⟩
    · exact hstart _ (finds_props h hprops hfind)

def components (path : List Byte) : List (List Byte) := (path.splitOnP (· = 0x2F#8)).filter (· ≠ [])

def lookup : List (List Byte) → Node → Option Node
  | [], t => some t
  | s :: ss, t => (childNamed s t.children).bind (lookup ss)

theorem components_slash (path : List Byte) : components (0x2F#8 :: path) = components path := by
  rw [components, List.splitOnP_cons_eq_if_modifyHead]
  rfl

theorem components_dropWhile (path : List Byte) :
    components (path.dropWhile (· = 0x2F#8)) = components path := by
  induction path with
  | nil => rfl
  | cons b path ih =>
    by_cases hb : b = 0x2F#8
    · rw [List.dropWhile_cons_of_pos (by simpa using hb), ih, hb, components_slash]
    · rw [List.dropWhile_cons_of_neg (by simpa using hb)]

theorem not_of_dropWhile {q : Byte → Bool} {b : Byte} {rest : List Byte} (h : path.dropWhile q = b :: rest) :
    q b = false := by
  have hhead := List.head_dropWhile_not q (l := path) (by rw [h]; exact List.cons_ne_nil _ _)
  simpa only [h, List.head_cons] using hhead

theorem components_cons {b : Byte} (hb : b ≠ 0x2F#8) (rest : List Byte) :
    components (b :: rest) = (b :: rest).takeWhile (· ≠ 0x2F#8) ::
      components ((b :: rest).dropWhile (· ≠ 0x2F#8)) := by
  have hne : (b :: rest).takeWhile (· ≠ 0x2F#8) ≠ [] := by
    rw [List.takeWhile_cons_of_pos (by simpa using hb)]
    exact List.cons_ne_nil _ _
  have hname : ∀ x ∈ (b :: rest).takeWhile (· ≠ 0x2F#8), decide (x = 0x2F#8) = false :=
    fun x hx => by simpa using List.mem_takeWhile_imp hx
  have hsplit : (b :: rest).takeWhile (· ≠ 0x2F#8) ++ (b :: rest).dropWhile (· ≠ 0x2F#8) = b :: rest :=
    List.takeWhile_append_dropWhile
  cases hrest : (b :: rest).dropWhile (· ≠ 0x2F#8) with
  | nil =>
    rw [hrest, List.append_nil] at hsplit
    nth_rewrite 1 [← hsplit]
    rw [components, List.splitOnP_eq_singleton hname, List.filter_cons_of_pos (by simpa using hne)]
    rfl
  | cons c tail =>
    have hc : c = 0x2F#8 := by simpa using not_of_dropWhile hrest
    subst hc
    rw [hrest] at hsplit
    nth_rewrite 1 [← hsplit]
    rw [components, List.splitOnP_append_cons_of_forall_mem hname _ (by simp),
      List.filter_cons_of_pos (by simpa using hne), components_slash]
    rfl

/-- The rest of a path leads on from the node that has been found. -/
theorem pathLoop_of_nodeAt (h : Extent fdt n) (hheader : fdtCheckHeader fdt = 0) (hpath : 0#8 ∉ path)
    (hlen : path.length < 2 ^ 31) {fuel : ℕ} (hfuel : path.length < fuel) (ht : NodeAt fdt n off t) :
    match lookup (components path) t with
    | some c => ∃ p, pathLoop fdt fuel path off = .ok (p : ℕ) ∧ NodeAt fdt n p c
    | none => pathLoop fdt fuel path off = .ok (-errNotfound) := by
  induction fuel generalizing path off t with
  | zero => omega
  | succ fuel ih =>
    rw [pathLoop, ← components_dropWhile]
    cases hp : path.dropWhile (· = 0x2F#8) with
    | nil => exact ⟨off, rfl, ht⟩
    | cons b rest =>
      have hb : b ≠ 0x2F#8 := by simpa using not_of_dropWhile hp
      have hsuffix : b :: rest <:+ path := hp ▸ List.dropWhile_suffix _
      have hle := hsuffix.length_le
      have hlt : ((b :: rest).dropWhile (· ≠ 0x2F#8)).length < (b :: rest).length := by
        rw [List.dropWhile_cons_of_pos (by simpa using hb), List.length_cons]
        have hdrop := (List.dropWhile_suffix (· ≠ 0x2F#8) (l := rest)).length_le
        omega
      have hname : 0#8 ∉ (b :: rest).takeWhile (· ≠ 0x2F#8) :=
        fun h => hpath (hsuffix.subset ((List.takeWhile_prefix _).subset h))
      have htail : 0#8 ∉ (b :: rest).dropWhile (· ≠ 0x2F#8) :=
        fun h => hpath (hsuffix.subset ((List.dropWhile_suffix _).subset h))
      have hnameLen := (List.takeWhile_prefix (· ≠ 0x2F#8) (l := b :: rest)).length_le
      rw [components_cons hb, lookup, if_neg (List.cons_ne_nil b rest)]
      generalize (b :: rest).takeWhile (· ≠ 0x2F#8) = s at *
      generalize (b :: rest).dropWhile (· ≠ 0x2F#8) = tail at *
      have hsub := fdtSubnodeOffset_of_nodeAt h hheader hname (by omega) ht
      cases hchild : childNamed s t.children with
      | none =>
        rw [hchild] at hsub
        have hsub : fdtSubnodeOffsetNamelen fdt off s = .ok (-errNotfound) := hsub
        rw [hsub]
        rfl
      | some c =>
        rw [hchild] at hsub
        obtain ⟨p, hsub, hc⟩ := hsub
        have hgo : (do
            let offset ← fdtSubnodeOffsetNamelen fdt off s
            if offset < 0 then pure offset else pathLoop fdt fuel tail offset) = pathLoop fdt fuel tail (p : ℕ) := by
          rw [hsub]
          change (if ((p : ℕ) : ℤ) < 0 then pure (p : ℤ) else pathLoop fdt fuel tail (p : ℕ)) = _
          rw [if_neg (Int.not_lt.mpr (Int.natCast_nonneg p))]
        rw [hgo, Option.bind_some]
        exact ih htail (by omega) (by omega) hc

end Paths

section Properties

variable {fdt : Fdt} {n off off' : ℕ} {s : List Byte} {t : Node} {res : Except ℤ PropertyPtr}

theorem nextprop_of_prop (h : Extent fdt n) {name : CString} {val : List Byte}
    (htag : TagAt fdt n off (.prop name val) off') : nextprop fdt off = .ok (off : ℤ) := by
  rw [nextprop, Fdt.fuel, nextpropLoop]
  simp only [fdtNextTag_of_tagAt h htag, bind, Except.bind]
  rfl

/-- Properties stand in front of the children. -/
theorem nextprop_of_node (h : Extent fdt n) {tag : Tag} (htag : TagAt fdt n off tag off')
    (hcode : tag.code = fdtBeginNode ∨ tag.code = fdtEndNode) : nextprop fdt off = .ok (-errNotfound) := by
  rw [nextprop, Fdt.fuel, nextpropLoop]
  simp only [fdtNextTag_of_tagAt h htag, bind, Except.bind]
  obtain hcode | hcode := hcode <;> rw [hcode] <;> rfl

/-- What the loop of `fdt_get_property_namelen` comes to from the tag at `off` on. -/
def FindsProp (fdt : Fdt) (n : ℕ) (s : List Byte) (off : ℕ) (res : Except ℤ PropertyPtr) : Prop :=
  ∀ fuel, Enough n off fuel →
    (do let offset ← nextprop fdt off
        getPropertyLoop fdt s fuel offset) = Except.ok res

theorem findsProp_none (h : Extent fdt n) {tag : Tag} (htag : TagAt fdt n off tag off')
    (hcode : tag.code = fdtBeginNode ∨ tag.code = fdtEndNode) :
    FindsProp fdt n s off (.error (-errNotfound)) := by
  intro fuel hfuel
  obtain ⟨k, rfl, -⟩ := hfuel.next htag
  rw [nextprop_of_node h htag hcode]
  rfl

/-- The header of a property leads to its name and to its value. -/
theorem fdtGetPropertyByOffset_of_tagAt (h : Extent fdt n) {name : CString} {val : List Byte}
    (htag : TagAt fdt n off (.prop name val) off') :
    ∃ prop : PropertyPtr, fdtGetPropertyByOffset fdt off = .ok (.ok prop) ∧ prop.len = val.length ∧
      HasAt fdt.bytes (prop.data fdt) val ∧
      ∀ s, fdtStringEq fdt (int32 prop.nameoff) s = .ok (decide (name.chars = s)) := by
  have hcheck : fdtCheckPropOffset fdt off = .ok (off' : ℤ) := checkOffset_of_tagAt h htag
  have hbehind : ¬((off' : ℕ) : ℤ) < 0 := Int.not_lt.mpr (Int.natCast_nonneg off')
  cases htag with
  | prop haligned hplace hname hnameoff hnext hlimit =>
    next nameoff =>
    have hstruct := h.struct
    have hsmall := h.small
    have halign := le_align (a := 4) (by decide) (off + 12 + val.length)
    have hlen := hplace.right.left
    have hoffset := hplace.right.right.left
    have hdata := hplace.right.right.right
    simp only [length_toBytes] at hlen hoffset hdata
    have habs : ((off : ℤ) + (fdt.offDtStruct : ℕ)).toNat = fdt.offDtStruct + off := by
      rw [← Int.natCast_add, Int.toNat_natCast, Nat.add_comm]
    have hlen := load32_of_hasAt (by omega) hlen
    have hoffset := load32_of_hasAt (hnameoff.trans (by decide)) hoffset
    refine ⟨⟨off, val.length, nameoff⟩, ?_, rfl, ?_, fun s => ?_⟩
    · rw [fdtGetPropertyByOffset]
      simp only [hcheck, habs, bind, Except.bind]
      rw [if_neg hbehind, hlen]
      simp only [show fdt.offDtStruct + off + 8 = fdt.offDtStruct + off + 4 + 4 from rfl, hoffset]
      rfl
    · rw [PropertyPtr.data, habs]
      exact hdata
    · rw [int32_natCast hnameoff, fdtStringEq, fdtString, ← Int.natCast_add,
        if_neg (Int.not_lt.mpr (Int.natCast_nonneg _)), Int.toNat_natCast, loadString_of_hasAt hname]
      rfl

/-- A property ends the loop if it has the name, and the loop goes on behind it otherwise. -/
theorem findsProp_cons (h : Extent fdt n) {name : CString} {val : List Byte}
    (htag : TagAt fdt n off (.prop name val) off') :
    ∃ prop : PropertyPtr, prop.len = val.length ∧ HasAt fdt.bytes (prop.data fdt) val ∧
      (name.chars = s → FindsProp fdt n s off (.ok prop)) ∧
      (name.chars ≠ s → ∀ res, FindsProp fdt n s off' res → FindsProp fdt n s off res) := by
  have hnextprop := nextprop_of_prop h htag
  have hcheck : fdtCheckPropOffset fdt off = .ok (off' : ℤ) := checkOffset_of_tagAt h htag
  have hstart : ¬((off : ℕ) : ℤ) < 0 := Int.not_lt.mpr (Int.natCast_nonneg off)
  obtain ⟨prop, hget, hlen, hdata, heq⟩ := fdtGetPropertyByOffset_of_tagAt h htag
  refine ⟨prop, hlen, hdata, fun hmatch fuel hfuel => ?_, fun hmatch res hrest fuel hfuel => ?_⟩
  · obtain ⟨k, rfl, -⟩ := hfuel.next htag
    have heq := heq s
    rw [decide_eq_true hmatch] at heq
    rw [hnextprop]
    change getPropertyLoop fdt s (k + 1) off = _
    rw [getPropertyLoop, if_neg hstart]
    rw [hget, ok_bind]
    dsimp only
    rw [heq, ok_bind]
    rfl
  · obtain ⟨k, rfl, hk⟩ := hfuel.next htag
    have hgo : fdtNextPropertyOffset fdt off = nextprop fdt off' := by
      rw [fdtNextPropertyOffset]
      simp only [hcheck, bind, Except.bind]
      exact if_neg (Int.not_lt.mpr (Int.natCast_nonneg off'))
    have heq := heq s
    rw [decide_eq_false hmatch] at heq
    rw [hnextprop]
    change getPropertyLoop fdt s (k + 1) off = _
    rw [getPropertyLoop, if_neg hstart]
    rw [hget, ok_bind]
    dsimp only
    rw [heq, ok_bind, hgo]
    exact hrest k hk

def valueNamed (s : List Byte) (props : List Property) : Option (List Byte) :=
  (props.find? fun p => p.name.chars = s).map (·.val.val)

/-- The properties of a node, and the first of them that has the name. -/
theorem findsProp_props (h : Extent fdt n) {tag : Tag} {off'' : ℕ} (props : List Property)
    (hprops : Chain fdt n off (props.map fun p => .prop p.name p.val.val) off')
    (htag : TagAt fdt n off' tag off'') (hcode : tag.code = fdtBeginNode ∨ tag.code = fdtEndNode) :
    match valueNamed s props with
    | some val => ∃ prop : PropertyPtr, prop.len = val.length ∧ HasAt fdt.bytes (prop.data fdt) val ∧
        FindsProp fdt n s off (.ok prop)
    | none => FindsProp fdt n s off (.error (-errNotfound)) := by
  induction props generalizing off with
  | nil =>
    cases hprops
    exact findsProp_none h htag hcode
  | cons p props ih =>
    cases hprops with
    | cons hp hprops =>
      obtain ⟨prop, hlen, hdata, hhere, hskip⟩ := findsProp_cons (s := s) h hp
      rw [valueNamed, List.find?_cons]
      by_cases hname : p.name.chars = s
      · rw [decide_eq_true hname]
        exact ⟨prop, hlen, hdata, hhere hname⟩
      · rw [decide_eq_false hname]
        have hrest := ih hprops
        rw [valueNamed] at hrest
        simp only
        split at hrest
        · obtain ⟨prop, hlen, hdata, hfind⟩ := hrest
          exact ⟨prop, hlen, hdata, hskip hname _ hfind⟩
        · exact hskip hname _ hrest

theorem fdtGetpropNamelen_of_nodeAt (h : Extent fdt n) (ht : NodeAt fdt n off t) :
    match valueNamed s t.proplist with
    | some val => ∃ p, fdtGetpropNamelen fdt off s = .ok (.ok (p, val.length)) ∧ HasAt fdt.bytes p val
    | none => fdtGetpropNamelen fdt off s = .ok (.error (-errNotfound)) := by
  obtain ⟨info, children⟩ := t
  obtain ⟨off', ht⟩ := ht
  rw [tagsOf] at ht
  cases ht with
  | @cons _ mid _ _ _ hbegin ht =>
    obtain ⟨mid', hprops, hbelow⟩ := chain_append.mp ht
    have hfirst : fdtFirstPropertyOffset fdt off = nextprop fdt mid := by
      rw [fdtFirstPropertyOffset]
      simp only [checkNodeOffset_of_tagAt h hbegin, bind, Except.bind]
      exact if_neg (Int.not_lt.mpr (Int.natCast_nonneg mid))
    have hget : ∀ {res}, FindsProp fdt n s mid res → fdtGetPropertyNamelen fdt off s = .ok res := by
      intro res hres
      rw [fdtGetPropertyNamelen, hfirst]
      exact hres fdt.fuel (enough_fuel h mid)
    obtain ⟨tag, next, htag, hcode⟩ : ∃ tag next, TagAt fdt n mid' tag next ∧
        (tag.code = fdtBeginNode ∨ tag.code = fdtEndNode) := by
      cases children with
      | nil => exact ⟨_, _, chain_singleton.mp hbelow, .inr rfl⟩
      | cons c cs =>
        obtain ⟨info', below⟩ := c
        rw [tagsOfChildren, tagsOf] at hbelow
        cases hbelow with
        | cons htag _ => exact ⟨_, _, htag, .inl rfl⟩
    have hfind := findsProp_props (s := s) h info.proplist hprops htag hcode
    rw [Node.proplist, Node.info_mk]
    split at hfind
    · obtain ⟨prop, hlen, hdata, hfind⟩ := hfind
      refine ⟨prop.data fdt, ?_, hdata⟩
      rw [fdtGetpropNamelen, hget hfind, ← hlen]
      rfl
    · rw [fdtGetpropNamelen, hget hfind]
      rfl

def valueAt (path name : CString) (t : Node) : Option (List Byte) :=
  (lookup (components path.chars) t).bind fun c => valueNamed name.chars c.proplist

/-- Where the tags of a tree stand, what is read is what the tree has. -/
theorem readProp_of_nodeAt (h : Extent fdt n) (hheader : fdtCheckHeader fdt = 0) {path name : CString}
    {fuel : ℕ} (habsolute : path.chars.head? = some 0x2F#8) (hlen : path.chars.length < 2 ^ 31)
    (ht : NodeAt fdt n 0 t) :
    readProp fdt (fuel + 1) path name = .ok ((valueAt path name t).elim (.error (-errNotfound)) .ok) := by
  have hroot := pathLoop_of_nodeAt h hheader path.noNul hlen (Nat.lt_succ_self _) ht
  have hpath : fdtPathOffset fdt (fuel + 1) path = pathLoop fdt (path.chars.length + 1) path.chars 0 := by
    rw [fdtPathOffset, fdtPathOffsetNamelen, if_neg (not_not.mpr hheader), if_pos habsolute]
  rw [readProp, hpath, valueAt]
  split at hroot
  · next c hfound =>
    obtain ⟨p, hp, hnode⟩ := hroot
    have hget := fdtGetpropNamelen_of_nodeAt (s := name.chars) h hnode
    rw [hfound, Option.bind_some]
    change (do let offset ← pathLoop fdt path.chars.length.succ path.chars ((0 : ℕ) : ℤ); _) = _
    rw [hp, ok_bind, if_neg (Int.not_lt.mpr (Int.natCast_nonneg p)), fdtGetprop]
    split at hget
    · next val hval =>
      obtain ⟨q, hget, hdata⟩ := hget
      rw [hget, hval, ok_bind]
      dsimp only
      rw [loadBytes_of_hasAt hdata rfl]
      rfl
    · next hval =>
      rw [hget, hval]
      rfl
  · next hfound =>
    rw [hfound, Option.bind_none]
    change (do let offset ← pathLoop fdt path.chars.length.succ path.chars ((0 : ℕ) : ℤ); _) = _
    rw [hroot]
    rfl

end Properties

end PynqPrio.Libfdt
