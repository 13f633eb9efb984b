import PynqPrio.DtcMerge

/-!
# Sources

A source of `dtc` is a first definition of the root and then blocks that define the root again,
add to a node that a label or a path refers to, or delete such a node. A pointer into the tree
is the list of the numbers of the children that lead to the node.
-/
namespace PynqPrio.Dtc
open Formats Stores

section References

mutual
def getNodeByLabel (label : CString) : Node → Option (List ℕ)
  | .mk info children =>
    if info.labels.any (fun l => !l.deleted && l.label = label) then some []
    else childByLabel label children 0
def childByLabel (label : CString) : List Node → ℕ → Option (List ℕ)
  | [], _ => none
  | c :: cs, i =>
    if c.deleted then childByLabel label cs (i + 1)
    else match getNodeByLabel label c with
      | some pos => some (i :: pos)
      | none => childByLabel label cs (i + 1)
end

mutual
/-- A name that a slash follows is only compared up to the slash, so the node may have a longer one. -/
def getNodeByPath : Node → List Byte → Option (List ℕ)
  | .mk info children, path =>
    if path = [] then if info.deleted then none else some []
    else childByPath children 0 (path.dropWhile (· = 0x2F#8))
def childByPath : List Node → ℕ → List Byte → Option (List ℕ)
  | [], _, _ => none
  | c :: cs, i, path =>
    if c.deleted then childByPath cs (i + 1) path
    else match path.dropWhile (· ≠ 0x2F#8) with
      | [] => if c.name.chars = path then some [i] else childByPath cs (i + 1) path
      | _ :: rest =>
        if (path.takeWhile (· ≠ 0x2F#8)).isPrefixOf c.name.chars then (getNodeByPath c rest).map (i :: ·)
        else childByPath cs (i + 1) path
end

def getNodeByRef (tree : Node) (ref : CString) : Option (List ℕ) :=
  if ref.chars = [0x2F#8] then some []
  else if ref.chars.head? = some 0x2F#8 then getNodeByPath tree ref.chars
  else getNodeByLabel ref tree

/-- Change the node that a pointer points to. -/
def modifyAt : List ℕ → (Node → Node) → Node → Node
  | [], f, t => f t
  | i :: pos, f, t => .mk t.info (t.children.modify i (modifyAt pos f))

end References

section Blocks

inductive Block
  | root (definition : Node)
  | ref (label : Option CString) (ref : CString) (definition : Node)
  | delete (ref : CString)

structure SourceState where
  tree : Node
  treesourceError : Bool

def labelNode (label : Option CString) (t : Node) : Node :=
  match label with
  | some l => .mk { t.info with labels := addLabel t.info.labels l } t.children
  | none => t

/-- The actions of the grammar for a device tree. A reference without a node is reported, and the
tree stays as it is. -/
def runBlock (s : SourceState) : Block → SourceState
  | .root definition => { s with tree := mergeNodes s.tree definition }
  | .ref label ref definition =>
    match getNodeByRef s.tree ref with
    | some pos =>
      { s with tree := modifyAt pos (fun target => mergeNodes (labelNode label target) definition) s.tree }
    | none => { s with treesourceError := true }
  | .delete ref =>
    match getNodeByRef s.tree ref with
    | some pos => { s with tree := modifyAt pos deleteNode s.tree }
    | none => { s with treesourceError := true }

/-- `dt_from_source` dies after the last block if there was an error. -/
def dtFromSource (first : Node) (blocks : List Block) : Option Node :=
  let s := blocks.foldl runBlock ⟨first, false⟩
  if s.treesourceError then none else some s.tree

end Blocks

section Pointers

/-- A pointer leads to a node through live nodes with the names `p`. -/
inductive Reaches : Node → List ℕ → List CString → Node → Prop
  | here (t : Node) : Reaches t [] [] t
  | child {info : NodeInfo} {children : List Node} {i : ℕ} {c t : Node} {pos : List ℕ} {p : List CString}
      (hc : children[i]? = some c) (halive : c.deleted = false) (h : Reaches c pos p t) :
      Reaches (.mk info children) (i :: pos) (c.name :: p) t

variable {t t' c : Node} {info : NodeInfo} {children : List Node} {i : ℕ} {pos : List ℕ} {p : List CString}

theorem Orderly.alive (h : Orderly info children) (hc : c ∈ children) (halive : c.deleted = false) :
    info.deleted = false := by
  cases hdel : info.deleted with
  | true => exact absurd (halive.symm.trans (h.deadChildren hdel c hc)) Bool.false_ne_true
  | false => rfl

/-- What a node says is what the tree says at its path. -/
theorem meaning_of_reaches (h : Reaches t pos p t') (hsound : Sound t) (q : List CString) :
    meaning t (p ++ q) = meaning t' q := by
  induction h with
  | here t => rfl
  | @child info children i c t pos p hc halive h ih =>
    have hmem := List.mem_of_getElem? hc
    have hlive : childOf c.name children = some c :=
      live_of_mem hsound.orderly.names hmem (congrArg (!·) halive)
    rw [meaning_mk (hsound.orderly.alive hmem halive), List.cons_append, Store.node, below, hlive]
    exact ih (hsound.of_mem hmem)

/-- A change of the node that a pointer points to is a change below its path. -/
theorem modifyAt_spec {f : Node → Node} {g : DtStore → DtStore} (h : Reaches t pos p t') (hsound : Sound t)
    (hf : Sound t' → meaning (f t') = g (meaning t') ∧ Sound (f t')) (hname : (f t').name = t'.name) :
    meaning (modifyAt pos f t) = within p g (meaning t) ∧ Sound (modifyAt pos f t) ∧
      (modifyAt pos f t).name = t.name := by
  induction h with
  | here t =>
    obtain ⟨hmeaning, hsound'⟩ := hf hsound
    exact ⟨hmeaning, hsound', hname⟩
  | @child info children i c t pos p hc halive h ih =>
    have hmem := List.mem_of_getElem? hc
    obtain ⟨hmeaning, hsound', hname'⟩ := ih (hsound.of_mem hmem) hf hname
    obtain ⟨hlt, rfl⟩ := List.getElem?_eq_some_iff.mp hc
    have hsplit : children = children.take i ++ children[i] :: children.drop (i + 1) := by
      rw [List.getElem_cons_drop, List.take_append_drop]
    have hmodify : children.modify i (modifyAt pos f) =
        children.take i ++ modifyAt pos f children[i] :: children.drop (i + 1) := by
      rw [List.modify_eq_take_cons_drop hlt]
    rw [modifyAt, Node.info_mk, Node.children_mk, hmodify]
    have halive' := hsound.orderly.alive hmem halive
    rw [hsplit] at hsound
    obtain ⟨hstep, hlast⟩ := replaceChild_spec hsound halive' hname' hsound' hmeaning
    refine ⟨?_, hlast, rfl⟩
    rw [hstep, ← hsplit]
    exact (within_append [children[i].name] p _).symm

end Pointers

section Resolution

/-- The paths that a path of a reference stands for: inner names may go on behind what is written. -/
def Along : List Byte → List CString → Prop
  | path, [] => path = []
  | path, name :: p => path ≠ [] ∧ match (path.dropWhile (· = 0x2F#8)).dropWhile (· ≠ 0x2F#8) with
    | [] => name.chars = path.dropWhile (· = 0x2F#8) ∧ p = []
    | _ :: rest => (path.dropWhile (· = 0x2F#8)).takeWhile (· ≠ 0x2F#8) <+: name.chars ∧ Along rest p

/-- A reference denotes the root, a path that it stands for, or a node with the label. -/
def Denotes (s : DtStore) (ref : CString) (p : List CString) : Prop :=
  if ref.chars = [0x2F#8] then p = []
  else if ref.chars.head? = some 0x2F#8 then (s p).isSome ∧ Along ref.chars p
  else ∃ f, s p = some f ∧ f.labels ref

variable {t t' c : Node} {info : NodeInfo} {children cs : List Node} {i : ℕ} {pos : List ℕ} {p : List CString}
  {label ref : CString} {path : List Byte}

theorem childByLabel_eq_some (h : childByLabel label cs i = some pos) :
    ∃ j c pos', pos = (i + j) :: pos' ∧ cs[j]? = some c ∧ c.deleted = false ∧
      getNodeByLabel label c = some pos' := by
  induction cs generalizing i with
  | nil => cases h
  | cons c cs ih =>
    have hrest : childByLabel label cs (i + 1) = some pos → ∃ j c' pos', pos = (i + j) :: pos' ∧
        (c :: cs)[j]? = some c' ∧ c'.deleted = false ∧ getNodeByLabel label c' = some pos' := by
      intro h
      obtain ⟨j, c', pos', rfl, hc', halive, hlabel⟩ := ih h
      exact ⟨j + 1, c', pos', by rw [Nat.add_assoc, Nat.add_comm 1 j], hc', halive, hlabel⟩
    rw [childByLabel] at h
    split at h
    · exact hrest h
    · next halive =>
      split at h
      · next pos' hlabel =>
        exact ⟨0, c, pos', (Option.some.inj h).symm, rfl, Bool.not_eq_true _ ▸ halive, hlabel⟩
      · exact hrest h

theorem childByLabel_eq_none (h : childByLabel label cs i = none) :
    ∀ c ∈ cs, c.deleted = false → getNodeByLabel label c = none := by
  induction cs generalizing i with
  | nil => exact fun _ h => absurd h List.not_mem_nil
  | cons c cs ih =>
    rw [childByLabel] at h
    rw [List.forall_mem_cons]
    split at h
    · next hdel => exact ⟨fun halive => absurd (hdel.symm.trans halive) Bool.true_eq_false.mp, ih h⟩
    · split at h
      · cases h
      · next hlabel => exact ⟨fun _ => hlabel, ih h⟩

theorem labelled_iff_any {labels : List Label} :
    Labelled labels label ↔ labels.any (fun l => !l.deleted && l.label = label) = true := by
  simp [Labelled, List.any_eq_true, and_comm]

theorem getNodeByLabel_eq_some (h : getNodeByLabel label t = some pos) (hsound : Sound t) :
    ∃ p t', Reaches t pos p t' ∧ ∃ f, meaning t' [] = some f ∧ f.labels label := by
  induction t generalizing pos with
  | mk info children ih =>
    rw [getNodeByLabel] at h
    split at h
    · next hany =>
      obtain rfl := Option.some.inj h
      have hlabel := labelled_iff_any.mpr hany
      have halive : info.deleted = false := by
        cases hdel : info.deleted with
        | false => rfl
        | true =>
          obtain ⟨l, hl, -, hlive⟩ := hlabel
          exact absurd ((hsound.orderly.deadLabels hdel l hl).symm.trans hlive) Bool.true_eq_false.mp
      exact ⟨[], _, .here _, info.facts, by rw [meaning_mk halive]; rfl, hlabel⟩
    · obtain ⟨j, c, pos', rfl, hc, halive, hlabel⟩ := childByLabel_eq_some h
      have hmem := List.mem_of_getElem? hc
      obtain ⟨p, t', hreaches, hfacts⟩ := ih c hmem hlabel (hsound.of_mem hmem)
      exact ⟨c.name :: p, t', .child (by rwa [Nat.zero_add]) halive hreaches, hfacts⟩

/-- A label that is not found is on no node. -/
theorem getNodeByLabel_eq_none (h : getNodeByLabel label t = none) {f : Facts CString (List Byte) CString}
    (hf : meaning t p = some f) : ¬f.labels label := by
  induction p generalizing t with
  | nil =>
    obtain ⟨info, children⟩ := t
    rw [getNodeByLabel] at h
    rw [meaning] at hf
    split at hf
    · cases hf
    · obtain rfl := Option.some.inj hf
      split at h
      · cases h
      · next hany => exact fun hlabel => hany (labelled_iff_any.mp hlabel)
  | cons name p ih =>
    obtain ⟨info, children⟩ := t
    rw [getNodeByLabel] at h
    rw [meaning] at hf
    split at hf
    · cases hf
    · obtain ⟨c, hc, hf⟩ := Option.bind_eq_some_iff.mp hf
      obtain ⟨hmem, halive, -⟩ := live_eq_some hc
      split at h
      · cases h
      · exact ih (childByLabel_eq_none h c hmem (Bool.not_eq_true' _ ▸ halive)) hf

theorem childByPath_eq_some (h : childByPath cs i path = some pos) :
    ∃ j c pos', pos = (i + j) :: pos' ∧ cs[j]? = some c ∧ c.deleted = false ∧
      match path.dropWhile (· ≠ 0x2F#8) with
      | [] => c.name.chars = path ∧ pos' = []
      | _ :: rest => path.takeWhile (· ≠ 0x2F#8) <+: c.name.chars ∧ getNodeByPath c rest = some pos' := by
  induction cs generalizing i with
  | nil => cases h
  | cons c cs ih =>
    have hrest : childByPath cs (i + 1) path = some pos → ∃ j c' pos', pos = (i + j) :: pos' ∧
        (c :: cs)[j]? = some c' ∧ c'.deleted = false ∧ match path.dropWhile (· ≠ 0x2F#8) with
        | [] => c'.name.chars = path ∧ pos' = []
        | _ :: rest => path.takeWhile (· ≠ 0x2F#8) <+: c'.name.chars ∧ getNodeByPath c' rest = some pos' := by
      intro h
      obtain ⟨j, c', pos', rfl, hc', hfound⟩ := ih h
      exact ⟨j + 1, c', pos', by rw [Nat.add_assoc, Nat.add_comm 1 j], hc', hfound⟩
    rw [childByPath] at h
    split at h
    · exact hrest h
    · next halive =>
      have halive := Bool.not_eq_true _ ▸ halive
      split at h
      · next hend =>
        rw [hend] at hrest
        split at h
        · next hname => exact ⟨0, c, [], (Option.some.inj h).symm, rfl, halive, hname, rfl⟩
        · exact hrest h
      · next b rest hmore =>
        rw [hmore] at hrest
        split at h
        · next hhead =>
          obtain ⟨pos', hpos', rfl⟩ := Option.map_eq_some_iff.mp h
          exact ⟨0, c, pos', rfl, rfl, halive, List.isPrefixOf_iff_prefix.mp hhead, hpos'⟩
        · exact hrest h

theorem getNodeByPath_eq_some (h : getNodeByPath t path = some pos) :
    ∃ p t', Reaches t pos p t' ∧ t'.deleted = false ∧ Along path p := by
  induction t generalizing path pos with
  | mk info children ih =>
    rw [getNodeByPath] at h
    split at h
    · next hpath =>
      split at h
      · cases h
      · next halive =>
        obtain rfl := Option.some.inj h
        exact ⟨[], _, .here _, Bool.not_eq_true _ ▸ halive, hpath⟩
    · next hpath =>
      obtain ⟨j, c, pos', rfl, hc, halive, hfound⟩ := childByPath_eq_some h
      rw [Nat.zero_add]
      split at hfound
      · next hend =>
        obtain ⟨hname, rfl⟩ := hfound
        refine ⟨[c.name], c, .child hc halive (.here c), halive, hpath, ?_⟩
        rw [hend]
        exact ⟨hname, rfl⟩
      · next b rest hmore =>
        obtain ⟨hhead, hrest⟩ := hfound
        obtain ⟨p, t', hreaches, hlive, halong⟩ := ih c (List.mem_of_getElem? hc) hrest
        refine ⟨c.name :: p, t', .child hc halive hreaches, hlive, hpath, ?_⟩
        rw [hmore]
        exact ⟨hhead, halong⟩

/-- What a reference is resolved to, it denotes. -/
theorem getNodeByRef_eq_some (h : getNodeByRef t ref = some pos) (hsound : Sound t) :
    ∃ p t', Reaches t pos p t' ∧ Denotes (meaning t) ref p := by
  rw [getNodeByRef] at h
  split at h
  · next hroot =>
    obtain rfl := Option.some.inj h
    refine ⟨[], t, .here t, ?_⟩
    rw [Denotes, if_pos hroot]
  · next hroot =>
    split at h
    · next hslash =>
      obtain ⟨p, t', hreaches, halive, halong⟩ := getNodeByPath_eq_some h
      have hfacts : meaning t p = some t'.info.facts := by
        rw [← List.append_nil p, meaning_of_reaches hreaches hsound, meaning]
        exact if_neg (Bool.eq_false_iff.mp halive)
      refine ⟨p, t', hreaches, ?_⟩
      rw [Denotes, if_neg hroot, if_pos hslash, hfacts]
      exact ⟨rfl, halong⟩
    · next hslash =>
      obtain ⟨p, t', hreaches, f, hf, hlabel⟩ := getNodeByLabel_eq_some h hsound
      refine ⟨p, t', hreaches, ?_⟩
      rw [Denotes, if_neg hroot, if_neg hslash]
      exact ⟨f, by rw [← hf, ← meaning_of_reaches hreaches hsound, List.append_nil], hlabel⟩

/-- A label that is not found is on no node. A path is not found, although there is a node, where a
longer name in front of it has been taken for one of its names. -/
def Lost (s : DtStore) (ref : CString) : Prop :=
  ref.chars ≠ [0x2F#8] ∧ (ref.chars.head? = some 0x2F#8 ∨ ∀ p f, s p = some f → ¬f.labels ref)

theorem getNodeByRef_eq_none (h : getNodeByRef t ref = none) : Lost (meaning t) ref := by
  rw [getNodeByRef] at h
  split at h
  · cases h
  · next hroot =>
    split at h
    · next hslash => exact ⟨hroot, .inl hslash⟩
    · exact ⟨hroot, .inr fun p f hf => getNodeByLabel_eq_none h hf⟩

end Resolution

section Runs

/-- The edits for a label in front of a reference. -/
def labelEdits : Option CString → List DtEdit
  | some l => [⟨[], .make⟩, ⟨[], .label l⟩]
  | none => []

/-- The edits of a block whose reference denotes `p`. -/
def Block.edits : Block → List CString → List DtEdit
  | .root definition, _ => Dtc.edits definition
  | .ref label _ definition, p => (labelEdits label ++ Dtc.edits definition).map (.beneath p)
  | .delete _, p => [⟨p, .erase⟩]

def Block.target : Block → Option CString
  | .root _ => none
  | .ref _ r _ => some r
  | .delete r => some r

/-- A block defines a node, and names everything in it once. -/
def Block.Defined : Block → Prop
  | .root definition => Dtc.Defined definition ∧ definition.deleted = false
  | .ref _ _ definition => Dtc.Defined definition ∧ definition.deleted = false
  | .delete _ => True

/-- The edits of blocks one after the other, each at a path that its reference denotes by then. -/
inductive Runs : DtStore → List Block → List DtEdit → Prop
  | nil (s : DtStore) : Runs s [] []
  | cons {s : DtStore} {b : Block} {bs : List Block} {es : List DtEdit} (p : List CString)
      (hp : ∀ r ∈ b.target, Denotes s r p) (h : Runs (applyAll (b.edits p) s) bs es) :
      Runs s (b :: bs) (b.edits p ++ es)

def Block.definition : Block → Option Node
  | .root definition => some definition
  | .ref _ _ definition => some definition
  | .delete _ => none

variable {first t new : Node} {blocks pre post : List Block} {b : Block} {s : SourceState}

theorem Runs.split {s : DtStore} {es : List DtEdit} (h : Runs s (pre ++ blocks) es) :
    ∃ fs gs, es = fs ++ gs ∧ Runs s pre fs ∧ Runs (applyAll fs s) blocks gs := by
  induction pre generalizing s es with
  | nil => exact ⟨[], es, rfl, .nil s, h⟩
  | cons b pre ih =>
    cases h with
    | cons p hp h =>
      obtain ⟨fs, gs, rfl, hpre, hblocks⟩ := ih h
      exact ⟨_, gs, (List.append_assoc ..).symm, .cons p hp hpre, by rwa [applyAll_append]⟩

/-- What a definition says is said at the path of its block, whatever was there. -/
theorem value_of_definition (hb : b.Defined) (hnew : b.definition = some new) (p : List CString) (s : DtStore) :
    ∃ p', (∀ r ∈ b.target, p' = p) ∧ (b.target = none → p' = []) ∧
      ∀ q n v, (meaning new).value q n = some v → (applyAll (b.edits p) s).value (p' ++ q) n = some v := by
  cases b with
  | delete r => cases hnew
  | root definition =>
    obtain rfl := Option.some.inj hnew
    refine ⟨[], fun r hr => (Option.not_mem_none r hr).elim, fun _ => rfl, fun q n v hv => ?_⟩
    rw [meaning_eq_edits hb.1 hb.2] at hv
    exact value_applyAll_of_none hv
  | ref label r definition =>
    obtain rfl := Option.some.inj hnew
    refine ⟨p, fun _ _ => rfl, fun hnone => absurd hnone (Option.some_ne_none r), fun q n v hv => ?_⟩
    rw [meaning_eq_edits hb.1 hb.2] at hv
    rw [Block.edits, applyAll_beneath, Store.value, within_append_right, applyAll_append]
    exact value_applyAll_of_none hv

theorem merge_labelNode (label : Option CString) (hnew : Defined new) (halive : new.deleted = false)
    (h : Sound t) : meaning (mergeNodes (labelNode label t) new) =
      applyAll (labelEdits label ++ edits new) (meaning t) ∧ Sound (mergeNodes (labelNode label t) new) := by
  cases label with
  | none => exact merges_of_defined hnew halive t h
  | some l =>
    obtain ⟨info, children⟩ := t
    let info' : NodeInfo := { info with deleted := false, labels := addLabel info.labels l }
    have horderly := h.orderly
    have hsound : Sound (.mk info' children) := .mk ⟨horderly.props, horderly.names,
      fun h => absurd h Bool.false_ne_true, fun h => absurd h Bool.false_ne_true,
      fun h => absurd h Bool.false_ne_true⟩ fun c hc => h.of_mem hc
    -- merging takes the mark away, so it may as well be taken away before
    have hsame : mergeNodes (labelNode (some l) (.mk info children)) new = mergeNodes (.mk info' children) new := by
      obtain ⟨newInfo, newChildren⟩ := new
      rfl
    have hlabel : meaning (.mk info' children) =
        applyAll (labelEdits (some l)) (meaning (.mk info children)) := by
      have hfacts : info'.facts = { info with deleted := false }.facts.label l :=
        Facts.ext' (fun _ => rfl) fun _ => labelled_addLabel
      rw [labelEdits, applyAll_cons, ← meaning_undelete horderly, meaning_mk rfl, meaning_mk rfl, hfacts]
      exact funext fun p => by cases p <;> rfl
    rw [hsame, applyAll_append, ← hlabel]
    exact merges_of_defined hnew halive _ hsound

/-- A block does what its edits do, or it reports a reference that nothing has. -/
theorem runBlock_spec (hb : b.Defined) (h : Sound s.tree) :
    (∃ p, (∀ r ∈ b.target, Denotes (meaning s.tree) r p) ∧
      meaning (runBlock s b).tree = applyAll (b.edits p) (meaning s.tree) ∧ Sound (runBlock s b).tree ∧
      (runBlock s b).treesourceError = s.treesourceError) ∨
    ∃ r ∈ b.target, Lost (meaning s.tree) r ∧ (runBlock s b).treesourceError = true ∧
      (runBlock s b).tree = s.tree := by
  cases b with
  | root definition =>
    obtain ⟨hmeaning, hsound⟩ := merges_of_defined hb.1 hb.2 s.tree h
    exact .inl ⟨[], nofun, hmeaning, hsound, rfl⟩
  | ref label r definition =>
    rw [runBlock]
    split
    · next pos hpos =>
      obtain ⟨p, t', hreaches, hdenotes⟩ := getNodeByRef_eq_some hpos h
      have hname : (mergeNodes (labelNode label t') definition).name = t'.name := by
        rw [(info_mergeNodes _ _).2]
        cases label <;> rfl
      obtain ⟨hmeaning, hsound, -⟩ := modifyAt_spec
        (f := fun target => mergeNodes (labelNode label target) definition) hreaches h
        (fun ht' => merge_labelNode label hb.1 hb.2 ht') hname
      refine .inl ⟨p, fun r' hr' => Option.some.inj hr' ▸ hdenotes, ?_, hsound, rfl⟩
      rw [hmeaning, Block.edits, applyAll_beneath]
    · next hpos => exact .inr ⟨r, rfl, getNodeByRef_eq_none hpos, rfl, rfl⟩
  | delete r =>
    rw [runBlock]
    split
    · next pos hpos =>
      obtain ⟨p, t', hreaches, hdenotes⟩ := getNodeByRef_eq_some hpos h
      obtain ⟨hmeaning, hsound, -⟩ := modifyAt_spec (g := fun _ => .none) hreaches h
        (fun ht' => ⟨meaning_of_deleted (info_deleteNode t').1, sound_deleteNode ht'⟩) (info_deleteNode t').2
      refine .inl ⟨p, fun r' hr' => Option.some.inj hr' ▸ hdenotes, ?_, hsound, rfl⟩
      rw [hmeaning]
      exact (apply_erase p _).symm
    · next hpos => exact .inr ⟨r, rfl, getNodeByRef_eq_none hpos, rfl, rfl⟩

theorem treesourceError_foldl (h : s.treesourceError = true) :
    (blocks.foldl runBlock s).treesourceError = true := by
  induction blocks generalizing s with
  | nil => exact h
  | cons b blocks ih =>
    refine ih ?_
    cases b with
    | root definition => exact h
    | _ =>
      rw [runBlock]
      split
      · exact h
      · rfl

theorem foldl_runBlock_spec (hblocks : ∀ b ∈ blocks, b.Defined) (h : Sound s.tree)
    (hs : s.treesourceError = false) :
    if (blocks.foldl runBlock s).treesourceError = true then
      ∃ pre b post es, blocks = pre ++ b :: post ∧ Runs (meaning s.tree) pre es ∧
        ∃ r ∈ b.target, Lost (applyAll es (meaning s.tree)) r
    else
      ∃ es, Runs (meaning s.tree) blocks es ∧
        meaning (blocks.foldl runBlock s).tree = applyAll es (meaning s.tree) ∧
        Sound (blocks.foldl runBlock s).tree := by
  induction blocks generalizing s with
  | nil =>
    rw [List.foldl_nil, hs, if_neg Bool.false_ne_true]
    exact ⟨[], .nil _, rfl, h⟩
  | cons b blocks ih =>
    obtain ⟨p, hdenotes, hmeaning, hsound, herror⟩ | ⟨r, hr, hlost, herror, -⟩ :=
      runBlock_spec (s := s) (hblocks b List.mem_cons_self) h
    · have hrest := ih (s := runBlock s b) (fun b hb => hblocks b (List.mem_cons_of_mem _ hb)) hsound
        (herror.trans hs)
      rw [List.foldl_cons]
      rw [hmeaning] at hrest
      split
      · next hfail =>
        rw [if_pos hfail] at hrest
        obtain ⟨pre, b', post, es, rfl, hruns, r, hr, hlost⟩ := hrest
        exact ⟨b :: pre, b', post, _, rfl, .cons p hdenotes hruns, r, hr, by rwa [applyAll_append]⟩
      · next hfine =>
        rw [if_neg hfine] at hrest
        obtain ⟨es, hruns, hlast, hsound⟩ := hrest
        exact ⟨_, .cons p hdenotes hruns, by rw [hlast, applyAll_append], hsound⟩
    · rw [List.foldl_cons, if_pos (treesourceError_foldl herror)]
      exact ⟨[], b, blocks, [], rfl, .nil _, r, hr, hlost⟩

/-- A source is compiled to the tree that says what all its edits say one after the other, or some
block refers to what the blocks before it have not made. -/
theorem dtFromSource_spec (hfirst : Defined first) (halive : first.deleted = false)
    (hblocks : ∀ b ∈ blocks, b.Defined) :
    match dtFromSource first blocks with
    | some t => ∃ es, Runs (meaning first) blocks es ∧
        meaning t = applyAll (edits first ++ es) .none ∧ Sound t
    | none => ∃ pre b post es, blocks = pre ++ b :: post ∧ Runs (meaning first) pre es ∧
        ∃ r ∈ b.target, Lost (applyAll (edits first ++ es) .none) r := by
  have hspec := foldl_runBlock_spec (s := ⟨first, false⟩) hblocks hfirst.sound rfl
  have hmeaning := meaning_eq_edits hfirst halive
  rw [dtFromSource]
  dsimp only at hspec ⊢
  split at hspec
  · next hfail =>
    rw [if_pos hfail]
    obtain ⟨pre, b, post, es, hsplit, hruns, r, hr, hlost⟩ := hspec
    exact ⟨pre, b, post, es, hsplit, hruns, r, hr, by rwa [applyAll_append, ← hmeaning]⟩
  · next hfine =>
    rw [if_neg hfine]
    obtain ⟨es, hruns, hlast, hsound⟩ := hspec
    exact ⟨es, hruns, by rw [hlast, applyAll_append, ← hmeaning], hsound⟩

/-- `/ { d: e { }; };` -/
def sampleFirst : Node :=
  .mk {} [.mk { name := ⟨[0x65#8], by decide⟩, labels := [{ label := ⟨[0x64#8], by decide⟩ }] } []]

/-- `{ f = [01]; };` -/
def sampleDefinition : Node := .mk { proplist := [{ name := ⟨[0x66#8], by decide⟩, val := { val := [1#8] } }] } []

/-- `&d { f = [01]; };` and then `/delete-node/ &d;` -/
def sampleBlocks : List Block :=
  [.ref none ⟨[0x64#8], by decide⟩ sampleDefinition, .delete ⟨[0x64#8], by decide⟩]

theorem defined_leaf (name : CString) {proplist : List Property} (labels : List CString)
    (hprops : (proplist.map Property.name).Nodup) :
    Defined (.mk { name, proplist, labels := labels.map fun label => { label } } []) :=
  .node hprops .nil fun _ hc => absurd hc List.not_mem_nil

theorem defined_sampleFirst : Defined sampleFirst := by
  refine @Defined.node .empty [] [] _ .nil (by decide) fun c hc => ?_
  rw [List.mem_singleton.mp hc]
  exact defined_leaf _ [_] .nil

theorem defined_sampleBlocks : ∀ b ∈ sampleBlocks, b.Defined := by
  rintro b (_ | ⟨_, _ | ⟨_, ⟨⟩⟩⟩)
  · exact ⟨defined_leaf .empty [] (by decide), rfl⟩
  · trivial

theorem dtFromSource_spec_sample : ∃ t es, dtFromSource sampleFirst sampleBlocks = some t ∧
    Runs (meaning sampleFirst) sampleBlocks es ∧ meaning t = applyAll (edits sampleFirst ++ es) .none ∧ Sound t := by
  have hspec := dtFromSource_spec defined_sampleFirst rfl defined_sampleBlocks
  have hrun : (dtFromSource sampleFirst sampleBlocks).isSome := by decide
  obtain ⟨t, ht⟩ := Option.isSome_iff_exists.mp hrun
  rw [ht] at hspec
  obtain ⟨es, hruns, hmeaning, hsound⟩ := hspec
  exact ⟨t, es, ht, hruns, hmeaning, hsound⟩

/-- A property that a block gives is in the tree unless a later block touches it. -/
theorem definition_lasts (hfirst : Defined first) (halive : first.deleted = false)
    (hblocks : ∀ b' ∈ pre ++ b :: post, b'.Defined) (hnew : b.definition = some new)
    (ht : dtFromSource first (pre ++ b :: post) = some t) :
    ∃ es p es', Runs (meaning first) pre es ∧ (∀ r ∈ b.target, Denotes (applyAll (edits first ++ es) .none) r p) ∧
      (b.target = none → p = []) ∧ Runs (applyAll (edits first ++ es ++ b.edits p) .none) post es' ∧
      ∀ q n v, (meaning new).value q n = some v → (∀ e ∈ es', ¬e.Touches (p ++ q) n) →
        (meaning t).value (p ++ q) n = some v := by
  have hspec := foldl_runBlock_spec (s := ⟨first, false⟩) hblocks hfirst.sound rfl
  have hmeaning := meaning_eq_edits hfirst halive
  rw [dtFromSource] at ht
  dsimp only at hspec ht
  split_ifs at ht with hfail
  obtain rfl := Option.some.inj ht
  rw [if_neg hfail] at hspec
  obtain ⟨_, hruns, hlast, -⟩ := hspec
  obtain ⟨es, _, rfl, hpre, hrest⟩ := hruns.split
  rw [hmeaning, ← applyAll_append] at hrest
  cases hrest with
  | @cons _ _ _ es' p hp hrest =>
    have hb := hblocks b (List.mem_append_right pre List.mem_cons_self)
    obtain ⟨p', hsame, hroot, hvalue⟩ := value_of_definition hb hnew p (applyAll (edits first ++ es) .none)
    have hedits : b.edits p = b.edits p' := by
      cases b with
      | root definition => rfl
      | ref label r definition => rw [hsame r rfl]
      | delete r => rw [hsame r rfl]
    rw [hedits, ← applyAll_append] at hrest
    refine ⟨es, p', es', hpre, fun r hr => hsame r hr ▸ hp r hr, hroot, hrest, fun q n v hv huntouched => ?_⟩
    rw [hlast, hmeaning, ← applyAll_append, hedits, ← List.append_assoc, ← List.append_assoc, applyAll_append,
      value_applyAll_of_not_touches huntouched, applyAll_append, ← hedits]
    exact hvalue q n v hv

theorem definition_lasts_sample : ∃ t p, dtFromSource sampleFirst (sampleBlocks.take 1) = some t ∧
    (meaning t).value p ⟨[0x66#8], by decide⟩ = some [1#8] := by
  have hrun : (dtFromSource sampleFirst (sampleBlocks.take 1)).isSome := by decide
  obtain ⟨t, ht⟩ := Option.isSome_iff_exists.mp hrun
  have hblocks : ∀ b ∈ [] ++ Block.ref none ⟨[0x64#8], by decide⟩ sampleDefinition :: [], b.Defined :=
    fun b hb => defined_sampleBlocks b (List.mem_of_mem_head? (List.mem_singleton.mp hb ▸ rfl))
  obtain ⟨es, p, es', -, -, -, hruns, hlasts⟩ := definition_lasts defined_sampleFirst rfl hblocks rfl ht
  cases hruns
  exact ⟨t, p ++ [], ht, hlasts [] _ _ rfl fun e he => absurd he List.not_mem_nil⟩

end Runs

end PynqPrio.Dtc
