import PynqPrio.DtcSource

/-!
# Positions in a tree

The checks of `dtc` work on one node after the other. They change what a node has, never the
shape of the tree, so that a pointer that was found before still points to the same node.
-/
namespace PynqPrio.Dtc
open Formats

section Positions

def infoAt : List ℕ → Node → Option NodeInfo
  | [], t => some t.info
  | i :: pos, t => t.children[i]?.bind (infoAt pos)

def updateInfo (f : NodeInfo → NodeInfo) (t : Node) : Node := .mk (f t.info) t.children

def updateInfoAt (pos : List ℕ) (f : NodeInfo → NodeInfo) (t : Node) : Node := modifyAt pos (updateInfo f) t

mutual
/-- The nodes that `check_nodes_props` visits, in its order. -/
def livePositions : Node → List (List ℕ)
  | .mk _ children => [] :: livePositionsBelow children 0
def livePositionsBelow : List Node → ℕ → List (List ℕ)
  | [], _ => []
  | c :: cs, i =>
    (if c.deleted then [] else (livePositions c).map (i :: ·)) ++ livePositionsBelow cs (i + 1)
end

/-- What the checks leave as it is. -/
def NodeInfo.frame (info : NodeInfo) : NodeInfo := { info with phandle := 0, proplist := [] }

mutual
def skeleton : Node → Node
  | .mk info children => .mk info.frame (skeletons children)
def skeletons : List Node → List Node
  | [] => []
  | c :: cs => skeleton c :: skeletons cs
end

variable {t t' c : Node} {info : NodeInfo} {children cs : List Node} {pos pos' : List ℕ} {i j : ℕ}
  {f : NodeInfo → NodeInfo}

theorem infoAt_updateInfoAt_self (pos : List ℕ) (t : Node) :
    infoAt pos (updateInfoAt pos f t) = (infoAt pos t).map f := by
  induction pos generalizing t with
  | nil => rfl
  | cons i pos ih =>
    rw [updateInfoAt, modifyAt, infoAt, Node.children_mk, List.getElem?_modify_eq, infoAt]
    cases t.children[i]? with
    | none => rfl
    | some c => exact ih c

theorem infoAt_updateInfoAt_of_ne (h : pos' ≠ pos) (t : Node) :
    infoAt pos' (updateInfoAt pos f t) = infoAt pos' t := by
  induction pos generalizing pos' t with
  | nil =>
    cases pos' with
    | nil => exact absurd rfl h
    | cons j pos' => rfl
  | cons i pos ih =>
    cases pos' with
    | nil => rfl
    | cons j pos' =>
      rw [updateInfoAt, modifyAt, infoAt, Node.children_mk, infoAt]
      by_cases hij : i = j
      · subst hij
        rw [List.getElem?_modify_eq]
        cases t.children[i]? with
        | none => rfl
        | some c => exact ih (fun heq => h (congrArg (i :: ·) heq)) c
      · simp [hij]

theorem skeletons_eq_map (cs : List Node) : skeletons cs = cs.map skeleton := by
  induction cs with
  | nil => rfl
  | cons c cs ih => rw [skeletons, ih, List.map_cons]

@[simp] theorem deleted_skeleton (t : Node) : (skeleton t).deleted = t.deleted := by
  cases t
  rfl

@[simp] theorem name_skeleton (t : Node) : (skeleton t).name = t.name := by
  cases t
  rfl

theorem skeleton_updateInfoAt (hf : ∀ info, (f info).frame = info.frame) (pos : List ℕ) (t : Node) :
    skeleton (updateInfoAt pos f t) = skeleton t := by
  induction pos generalizing t with
  | nil =>
    obtain ⟨info, children⟩ := t
    rw [updateInfoAt, modifyAt, updateInfo, skeleton, skeleton, Node.info_mk, hf, Node.children_mk]
  | cons i pos ih =>
    obtain ⟨info, children⟩ := t
    rw [updateInfoAt, modifyAt, skeleton, skeleton, Node.children_mk, Node.info_mk, skeletons_eq_map,
      skeletons_eq_map]
    refine congrArg (Node.mk _) (List.ext_getElem? fun j => ?_)
    rw [List.getElem?_map, List.getElem?_map, List.getElem?_modify]
    split
    · next hij =>
      subst hij
      cases children[i]? with
      | none => rfl
      | some c => exact congrArg some (ih c)
    · simp

theorem livePositions_skeleton (t : Node) : livePositions (skeleton t) = livePositions t := by
  induction t with
  | mk info children ih =>
    rw [skeleton, livePositions, livePositions]
    refine congrArg ([] :: ·) ?_
    suffices h : ∀ i, livePositionsBelow (skeletons children) i = livePositionsBelow children i from h 0
    induction children with
    | nil => exact fun i => rfl
    | cons c cs ihs =>
      intro i
      rw [skeletons, livePositionsBelow, livePositionsBelow, ih c List.mem_cons_self,
        ihs (fun c hc => ih c (List.mem_cons_of_mem _ hc)), deleted_skeleton]

theorem getNodeByLabel_skeleton (label : CString) (t : Node) :
    getNodeByLabel label (skeleton t) = getNodeByLabel label t := by
  induction t with
  | mk info children ih =>
    rw [skeleton, getNodeByLabel, getNodeByLabel]
    suffices h : ∀ i, childByLabel label (skeletons children) i = childByLabel label children i by
      rw [h]
      rfl
    induction children with
    | nil => exact fun i => rfl
    | cons c cs ihs =>
      intro i
      rw [skeletons, childByLabel, childByLabel, ih c List.mem_cons_self,
        ihs (fun c hc => ih c (List.mem_cons_of_mem _ hc)), deleted_skeleton]

theorem getNodeByPath_skeleton (path : List Byte) (t : Node) :
    getNodeByPath (skeleton t) path = getNodeByPath t path := by
  induction t generalizing path with
  | mk info children ih =>
    rw [skeleton, getNodeByPath, getNodeByPath]
    suffices h : ∀ i path, childByPath (skeletons children) i path = childByPath children i path by
      rw [h]
      rfl
    induction children with
    | nil => exact fun i path => rfl
    | cons c cs ihs =>
      intro i path
      simp only [skeletons, childByPath, ihs (fun c hc => ih c (List.mem_cons_of_mem _ hc)), deleted_skeleton,
        name_skeleton, ih c List.mem_cons_self]

/-- References depend on the shape of the tree alone. -/
theorem getNodeByRef_of_skeleton (h : skeleton t = skeleton t') (ref : CString) :
    getNodeByRef t ref = getNodeByRef t' ref := by
  rw [getNodeByRef, getNodeByRef, ← getNodeByPath_skeleton ref.chars t, ← getNodeByLabel_skeleton ref t, h,
    getNodeByPath_skeleton, getNodeByLabel_skeleton]

theorem livePositions_of_skeleton (h : skeleton t = skeleton t') : livePositions t = livePositions t' := by
  rw [← livePositions_skeleton t, h, livePositions_skeleton]

theorem mem_livePositionsBelow : pos ∈ livePositionsBelow cs i ↔
    ∃ j c pos', pos = (i + j) :: pos' ∧ cs[j]? = some c ∧ c.deleted = false ∧ pos' ∈ livePositions c := by
  induction cs generalizing i with
  | nil => simp [livePositionsBelow]
  | cons c cs ih =>
    rw [livePositionsBelow, List.mem_append, ih]
    constructor
    · rintro (h | ⟨j, c', pos', rfl, hc', halive, hpos'⟩)
      · split at h
        · cases h
        · next halive =>
          obtain ⟨pos', hpos', rfl⟩ := List.mem_map.mp h
          exact ⟨0, c, pos', rfl, rfl, Bool.not_eq_true _ ▸ halive, hpos'⟩
      · exact ⟨j + 1, c', pos', by rw [Nat.add_assoc, Nat.add_comm 1 j], hc', halive, hpos'⟩
    · rintro ⟨j, c', pos', rfl, hc', halive, hpos'⟩
      cases j with
      | zero =>
        obtain rfl := Option.some.inj hc'
        rw [if_neg (Bool.eq_false_iff.mp halive)]
        exact .inl (List.mem_map_of_mem hpos')
      | succ j => exact .inr ⟨j, c', pos', by rw [Nat.add_assoc, Nat.add_comm 1 j], hc', halive, hpos'⟩

/-- A live position is that of a node. -/
theorem exists_infoAt (h : pos ∈ livePositions t) : ∃ info, infoAt pos t = some info := by
  induction t generalizing pos with
  | mk info children ih =>
    rw [livePositions, List.mem_cons] at h
    obtain rfl | h := h
    · exact ⟨info, rfl⟩
    · obtain ⟨j, c, pos', rfl, hc, -, hpos'⟩ := mem_livePositionsBelow.mp h
      obtain ⟨info', hinfo'⟩ := ih c (List.mem_of_getElem? hc) hpos'
      refine ⟨info', ?_⟩
      rw [Nat.zero_add, infoAt, Node.children_mk, hc]
      exact hinfo'

theorem mem_livePositions_of_reaches {p : List CString} (h : Reaches t pos p t') : pos ∈ livePositions t := by
  induction h with
  | here t =>
    obtain ⟨info, children⟩ := t
    exact List.mem_cons_self
  | @child info children i c t pos p hc halive h ih =>
    exact List.mem_cons_of_mem _ (mem_livePositionsBelow.mpr ⟨i, c, pos, by rw [Nat.zero_add], hc, halive, ih⟩)

end Positions

end PynqPrio.Dtc
