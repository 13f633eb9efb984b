import PynqPrio.DtcTree
import PynqPrio.PathStores

/-!
# Merging definitions

A source of `dtc` defines the same node more than once, and `merge_nodes` puts each definition
into the tree that there is. What a tree says is a store, and a definition is a list of edits.
-/
namespace PynqPrio.Dtc
open Formats Stores

section Merging

def deletePropertyByName (node : NodeInfo) (name : CString) : NodeInfo :=
  { node with proplist := (updateFirst (·.name = name) deleteProperty node.proplist).getD node.proplist }

def deleteNodeByName (parent : Node) (name : CString) : Node :=
  .mk parent.info ((updateFirst (·.name = name) deleteNode parent.children).getD parent.children)

def mergeLabels (labels news : List Label) : List Label :=
  news.foldl (fun labels l => addLabel labels l.label) labels

/-- A property of the new node is moved to the old one, or its value replaces the old value. -/
def mergeProperty (old : NodeInfo) (new : Property) : NodeInfo :=
  if new.deleted then deletePropertyByName old new.name
  else
    let collide (p : Property) : Property :=
      { p with deleted := false, val := new.val, labels := mergeLabels p.labels new.labels }
    match updateFirst (·.name = new.name) collide old.proplist with
    | some proplist => { old with proplist }
    | none => addProperty old new

def mergeInfo (old new : NodeInfo) : NodeInfo :=
  new.proplist.foldl mergeProperty { old with deleted := false, labels := mergeLabels old.labels new.labels }

mutual
def mergeNodes (old : Node) : Node → Node
  | .mk info children => mergeChildren (.mk (mergeInfo old.info info) old.children) children
def mergeChildren (old : Node) : List Node → Node
  | [] => old
  | c :: cs => mergeChildren
    (if c.deleted then deleteNodeByName old c.name
    else match updateFirst (·.name = c.name) (fun oldChild => mergeNodes oldChild c) old.children with
      | some children => .mk old.info children
      | none => addChild old c) cs
end

end Merging

section Meaning

/-- What a tree says at its paths. -/
abbrev DtStore := Store CString CString (List Byte) CString

abbrev DtEdit := Edit CString CString (List Byte) CString

/-- A label that has not been deleted. -/
def Labelled (labels : List Label) (l : CString) : Prop := ∃ x ∈ labels, x.label = l ∧ x.deleted = false

def propOf (name : CString) (proplist : List Property) : Option Property :=
  live Property.name (!·.deleted) name proplist

def childOf (name : CString) (children : List Node) : Option Node := live Node.name (!·.deleted) name children

def NodeInfo.facts (info : NodeInfo) : Facts CString (List Byte) CString where
  values name := (propOf name info.proplist).map (·.val.val)
  labels := Labelled info.labels

def meaning : Node → DtStore
  | t, [] => if t.deleted then none else some t.info.facts
  | t, name :: p => if t.deleted then none else (childOf name t.children).bind fun c => meaning c p

/-- What the child with a name says. -/
def below (children : List Node) (name : CString) : DtStore := fun p =>
  (childOf name children).bind fun c => meaning c p

def propAction (p : Property) : Action CString (List Byte) CString :=
  .put p.name (if p.deleted then none else some p.val.val)

def NodeInfo.actions (info : NodeInfo) : List (Action CString (List Byte) CString) :=
  info.labels.map (.label ·.label) ++ info.proplist.map propAction

mutual
/-- The edits that a definition stands for. -/
def edits : Node → List DtEdit
  | .mk info children => ⟨[], .make⟩ :: (info.actions.map (Edit.mk []) ++ childEdits children)
def childEdits : List Node → List DtEdit
  | [] => []
  | c :: cs => (if c.deleted then [⟨[c.name], .erase⟩] else (edits c).map (.beneath [c.name])) ++ childEdits cs
end

/-- A node as the grammar builds it. A deletion is a node without contents. -/
inductive Defined : Node → Prop
  | node {name : CString} {proplist : List Property} {labels : List CString} {children : List Node}
      (hprops : (proplist.map Property.name).Nodup) (hnames : (children.map Node.name).Nodup)
      (hchildren : ∀ c ∈ children, Defined c) :
      Defined (.mk { name, proplist, labels := labels.map fun label => { label } } children)
  | deletion (name : CString) : Defined (buildNodeDelete name)

/-- A node of the tree. What a deleted node still has is deleted as well. -/
structure Orderly (info : NodeInfo) (children : List Node) : Prop where
  props : (info.proplist.map Property.name).Nodup
  names : (children.map Node.name).Nodup
  deadLabels : info.deleted = true → ∀ l ∈ info.labels, l.deleted = true
  deadProps : info.deleted = true → ∀ p ∈ info.proplist, p.deleted = true
  deadChildren : info.deleted = true → ∀ c ∈ children, c.deleted = true

inductive Sound : Node → Prop
  | mk {info : NodeInfo} {children : List Node} (h : Orderly info children)
      (hchildren : ∀ c ∈ children, Sound c) : Sound (.mk info children)

end Meaning

section Trees

variable {info info' : NodeInfo} {children children' : List Node} {t : Node} {name : CString}

theorem meaning_of_deleted (h : t.deleted = true) : meaning t = .none :=
  funext fun p => by cases p <;> exact if_pos h

theorem meaning_mk (h : info.deleted = false) (children : List Node) :
    meaning (.mk info children) = .node info.facts (below children) := by
  have hif : ¬info.deleted = true := by simp [h]
  funext p
  cases p <;> exact if_neg hif

theorem below_of_live {c : Node} (h : childOf name children = if !c.deleted then some c else none) :
    below children name = meaning c := by
  funext p
  rw [below, h]
  cases hc : c.deleted with
  | true => exact (congrFun (meaning_of_deleted hc) p).symm
  | false => rfl

theorem below_of_none (h : childOf name children = none) : below children name = .none := by
  funext p
  rw [below, h]
  rfl

theorem Sound.orderly (h : Sound (.mk info children)) : Orderly info children := by
  cases h
  assumption

theorem Sound.of_mem {c : Node} (h : Sound t) (hc : c ∈ t.children) : Sound c := by
  cases h with
  | mk _ hchildren => exact hchildren c hc

theorem Defined.sound (h : Defined t) : Sound t := by
  induction h with
  | node hprops hnames hchildren ih =>
    exact .mk ⟨hprops, hnames, fun h => absurd h Bool.false_ne_true, fun h => absurd h Bool.false_ne_true,
      fun h => absurd h Bool.false_ne_true⟩ ih
  | deletion name =>
    exact .mk ⟨.nil, .nil, fun _ _ h => absurd h List.not_mem_nil, fun _ _ h => absurd h List.not_mem_nil,
      fun _ _ h => absurd h List.not_mem_nil⟩ fun _ h => absurd h List.not_mem_nil

theorem info_deleteNode (t : Node) : (deleteNode t).deleted = true ∧ (deleteNode t).name = t.name := by
  cases t
  exact ⟨rfl, rfl⟩

theorem sound_deleteNode (h : Sound t) : Sound (deleteNode t) := by
  induction t with
  | mk info children ih =>
    have hchildren : ∀ c ∈ deleteChildren children, Sound c ∧ c.deleted = true := by
      have hsound : ∀ c ∈ children, Sound c := fun c hc => h.of_mem hc
      clear h
      induction children with
      | nil => exact fun _ h => absurd h List.not_mem_nil
      | cons c cs ihs =>
        rw [deleteChildren, List.forall_mem_cons]
        refine ⟨?_, ihs (fun c hc => ih c (List.mem_cons_of_mem _ hc))
          fun c hc => hsound c (List.mem_cons_of_mem _ hc)⟩
        split
        · next hc => exact ⟨hsound c List.mem_cons_self, hc⟩
        · exact ⟨ih c List.mem_cons_self (hsound c List.mem_cons_self), (info_deleteNode c).1⟩
    have hnames : (deleteChildren children).map Node.name = children.map Node.name := by
      clear h hchildren ih
      induction children with
      | nil => rfl
      | cons c cs ihs =>
        rw [deleteChildren, List.map_cons, List.map_cons, ihs]
        split
        · rfl
        · rw [(info_deleteNode c).2]
    rw [deleteNode]
    refine .mk ⟨?_, hnames ▸ h.orderly.names, fun _ l hl => ?_, fun _ p hp => ?_,
      fun _ c hc => (hchildren c hc).2⟩ fun c hc => (hchildren c hc).1
    · dsimp only
      rw [List.map_map]
      refine (List.map_congr_left fun p _ => ?_).symm ▸ h.orderly.props
      dsimp only [Function.comp]
      split <;> rfl
    · obtain ⟨l', -, rfl⟩ := List.mem_map.mp hl
      rfl
    · obtain ⟨p', -, rfl⟩ := List.mem_map.mp hp
      split
      · assumption
      · rfl

end Trees

section Infos

variable {info : NodeInfo} {children : List Node} {labels : List Label} {props : List Property} {p : Property}

theorem labelled_addLabel {l l' : CString} : Labelled (addLabel labels l) l' ↔ l' = l ∨ Labelled labels l' := by
  rw [addLabel]
  cases h : updateFirst (·.label = l) (fun x : Label => { x with deleted := false }) labels with
  | none =>
    simp only [Option.getD_none, Labelled, List.mem_cons, or_and_right, exists_or, exists_eq_left, and_true]
    exact or_congr_left eq_comm
  | some labels' =>
    obtain ⟨pre, a, post, rfl, ha, rfl⟩ := updateFirst_eq_some h
    obtain rfl : a.label = l := of_decide_eq_true ha
    simp only [Option.getD_some, Labelled, List.mem_append, List.mem_cons, or_and_right, exists_or,
      exists_eq_left, and_true]
    constructor
    · rintro (h | rfl | h)
      · exact .inr (.inl h)
      · exact .inl rfl
      · exact .inr (.inr (.inr h))
    · rintro (rfl | h | ⟨rfl, -⟩ | h)
      · exact .inr (.inl rfl)
      · exact .inl h
      · exact .inr (.inl rfl)
      · exact .inr (.inr h)

theorem labelled_mergeLabels (labels news : List Label) {l : CString} :
    Labelled (mergeLabels labels news) l ↔ (∃ x ∈ news, x.label = l) ∨ Labelled labels l := by
  induction news generalizing labels with
  | nil => simp [mergeLabels]
  | cons x news ih =>
    rw [mergeLabels, List.foldl_cons, ← mergeLabels, ih, labelled_addLabel]
    simp only [List.mem_cons, or_and_right, exists_or, exists_eq_left]
    rw [eq_comm, or_left_comm, ← or_assoc]

theorem facts_mergeLabels (info : NodeInfo) (news : List Label) :
    (news.map (Action.label ·.label)).foldl (fun o a => a.onFacts o) (some info.facts) =
      some { info with labels := mergeLabels info.labels news }.facts := by
  induction news generalizing info with
  | nil => rfl
  | cons l news ih =>
    have hstep : (info.facts.label l.label) = { info with labels := addLabel info.labels l.label }.facts :=
      Facts.ext' (fun _ => rfl) fun _ => labelled_addLabel.symm
    rw [List.map_cons, List.foldl_cons, Action.onFacts, Option.map_some, hstep, ih]
    rfl

theorem facts_concat (info : NodeInfo) (h : ((props ++ [p]).map Property.name).Nodup) :
    { info with proplist := props ++ [p] }.facts =
      { info with proplist := props }.facts.put p.name (if p.deleted then none else some p.val.val) := by
  rw [List.map_append, List.nodup_append'] at h
  refine Facts.ext' (fun name => ?_) fun _ => .rfl
  have hlive := live_concat (!·.deleted) (fun b hb (hname : b.name = p.name) =>
    h.2.2 (List.mem_map_of_mem hb) (List.mem_singleton.mpr hname)) name
  by_cases hname : name = p.name
  · subst hname
    rw [Facts.values_put_self, NodeInfo.facts]
    dsimp only
    rw [propOf, hlive, if_pos rfl]
    cases p.deleted <;> rfl
  · rw [Facts.values_put_of_ne hname, NodeInfo.facts]
    dsimp only
    rw [propOf, hlive, if_neg hname]
    rfl

theorem facts_updateFirst {f : Property → Property} {props' : List Property} {name : CString}
    (h : (info.proplist.map Property.name).Nodup) (hname : ∀ p, (f p).name = p.name)
    (hupdate : updateFirst (·.name = name) f info.proplist = some props') {value : Option (List Byte)}
    (hvalue : ∀ p, (if !(f p).deleted then some (f p) else none).map (·.val.val) = value) :
    { info with proplist := props' }.facts = info.facts.put name value ∧
      (props'.map Property.name).Nodup := by
  obtain ⟨pre, a, post, hprops, hq, rfl⟩ := updateFirst_eq_some hupdate
  obtain rfl : a.name = name := of_decide_eq_true hq
  have hnodup : ((pre ++ a :: post).map Property.name).Nodup := hprops ▸ h
  obtain ⟨-, hlive⟩ := live_replace (!·.deleted) hnodup (hname a)
  rw [← hprops] at hlive
  refine ⟨Facts.ext' (fun name => ?_) fun _ => .rfl, ?_⟩
  · by_cases hname : name = a.name
    · subst hname
      rw [Facts.values_put_self, NodeInfo.facts]
      dsimp only
      rw [propOf, hlive, if_pos rfl]
      exact hvalue a
    · rw [Facts.values_put_of_ne hname, NodeInfo.facts]
      dsimp only
      rw [propOf, hlive, if_neg hname]
      rfl
  · rw [List.map_append, List.map_cons] at hnodup ⊢
    rw [hname a]
    exact hnodup

theorem mergeProperty_spec (h : (info.proplist.map Property.name).Nodup) (p : Property) :
    (mergeProperty info p).facts = info.facts.put p.name (if p.deleted then none else some p.val.val) ∧
      ((mergeProperty info p).proplist.map Property.name).Nodup := by
  rw [mergeProperty]
  cases hdel : p.deleted with
  | true =>
    rw [if_pos rfl, if_pos rfl, deletePropertyByName]
    cases hupdate : updateFirst (·.name = p.name) deleteProperty info.proplist with
    | some props' => exact facts_updateFirst (f := deleteProperty) h (fun _ => rfl) hupdate fun _ => rfl
    | none =>
      refine ⟨Facts.ext' (fun name => ?_) fun _ => .rfl, h⟩
      by_cases hname : name = p.name
      · subst hname
        rw [Facts.values_put_self, NodeInfo.facts]
        dsimp only
        rw [Option.getD_none, propOf, live_eq_none fun a ha =>
          of_decide_eq_false (updateFirst_eq_none.mp hupdate a ha), Option.map_none]
      · exact (Facts.values_put_of_ne hname ..).symm
  | false =>
    rw [if_neg Bool.false_ne_true, if_neg Bool.false_ne_true]
    dsimp only
    split
    · next props' hupdate =>
      refine facts_updateFirst (f := fun old => { old with
        deleted := false, val := p.val, labels := mergeLabels old.labels p.labels }) h (fun _ => rfl) hupdate ?_
      exact fun _ => rfl
    · next hupdate =>
      have hnodup : ((info.proplist ++ [p]).map Property.name).Nodup := by
        rw [List.map_append, List.nodup_append']
        refine ⟨h, List.nodup_singleton _, ?_⟩
        intro name hmem hp
        obtain ⟨q, hq, rfl⟩ := List.mem_map.mp hmem
        exact of_decide_eq_false (updateFirst_eq_none.mp hupdate q hq) (List.mem_singleton.mp hp)
      have hconcat := facts_concat info hnodup
      rw [hdel] at hconcat
      exact ⟨hconcat, hnodup⟩

theorem facts_mergeProperties (info : NodeInfo) (props : List Property) (h : (info.proplist.map Property.name).Nodup) :
    (props.map propAction).foldl (fun o a => a.onFacts o) (some info.facts) =
      some (props.foldl mergeProperty info).facts ∧
      ((props.foldl mergeProperty info).proplist.map Property.name).Nodup := by
  induction props generalizing info with
  | nil => exact ⟨rfl, h⟩
  | cons p props ih =>
    obtain ⟨hstep, hnodup⟩ := mergeProperty_spec h p
    rw [List.map_cons, List.foldl_cons, propAction, Action.onFacts, Option.map_some, ← hstep]
    exact ih (mergeProperty info p) hnodup

theorem info_mergeProperty (info : NodeInfo) (p : Property) :
    (mergeProperty info p).deleted = info.deleted ∧ (mergeProperty info p).name = info.name := by
  rw [mergeProperty]
  split
  · exact ⟨rfl, rfl⟩
  · dsimp only
    split <;> exact ⟨rfl, rfl⟩

theorem info_mergeInfo (old new : NodeInfo) :
    (mergeInfo old new).deleted = false ∧ (mergeInfo old new).name = old.name := by
  rw [mergeInfo]
  suffices h : ∀ info : NodeInfo, (new.proplist.foldl mergeProperty info).deleted = info.deleted ∧
      (new.proplist.foldl mergeProperty info).name = info.name from h _
  induction new.proplist with
  | nil => exact fun info => ⟨rfl, rfl⟩
  | cons p props ih =>
    intro info
    obtain ⟨hdel, hname⟩ := ih (mergeProperty info p)
    obtain ⟨hdel', hname'⟩ := info_mergeProperty info p
    exact ⟨hdel.trans hdel', hname.trans hname'⟩

theorem actions_ne_erase (info : NodeInfo) : ∀ a ∈ info.actions, a ≠ .erase := by
  intro a ha
  obtain h | h := List.mem_append.mp ha
  · obtain ⟨l, -, rfl⟩ := List.mem_map.mp h
    exact nofun
  · obtain ⟨p, -, rfl⟩ := List.mem_map.mp h
    exact nofun

/-- A node comes back without what it had when it was deleted. -/
theorem meaning_undelete (h : Orderly info children) :
    meaning (.mk { info with deleted := false } children) =
      Edit.apply ⟨[], .make⟩ (meaning (.mk info children)) := by
  rw [meaning_mk rfl]
  cases hdel : info.deleted with
  | false =>
    rw [meaning_mk hdel]
    exact funext fun p => by cases p <;> rfl
  | true =>
    have hnone : meaning (.mk info children) = .none := meaning_of_deleted hdel
    have hfacts : { info with deleted := false }.facts = .empty := by
      refine Facts.ext' (fun name => ?_) fun l => ⟨?_, False.elim⟩
      · rw [NodeInfo.facts]
        dsimp only
        rw [propOf, live_eq_none_of_dead fun p hp => congrArg (!·) (h.deadProps hdel p hp)]
        rfl
      · rintro ⟨x, hx, -, hlive⟩
        rw [h.deadLabels hdel x hx] at hlive
        cases hlive
    rw [hnone, hfacts]
    funext p
    cases p with
    | nil => rfl
    | cons name p =>
      exact congrFun (below_of_none (live_eq_none_of_dead fun c hc =>
        congrArg (!·) (h.deadChildren hdel c hc))) p

theorem meaning_mergeInfo (h : Orderly info children) (new : NodeInfo) :
    meaning (.mk (mergeInfo info new) children) =
      applyAll (⟨[], .make⟩ :: new.actions.map (Edit.mk [])) (meaning (.mk info children)) ∧
      Orderly (mergeInfo info new) children := by
  let info₁ : NodeInfo := { info with deleted := false, labels := mergeLabels info.labels new.labels }
  obtain ⟨hprops, hnodup⟩ := facts_mergeProperties info₁ new.proplist h.props
  have hlabels := facts_mergeLabels { info with deleted := false } new.labels
  obtain ⟨hdel, -⟩ := info_mergeInfo info new
  refine ⟨?_, ⟨hnodup, h.names, ?_, ?_, ?_⟩⟩
  · rw [applyAll_cons, ← meaning_undelete h, meaning_mk hdel, meaning_mk rfl]
    refine (applyAll_node (actions_ne_erase new) _ _ ?_).symm
    rw [NodeInfo.actions, List.foldl_append, hlabels]
    exact hprops
  all_goals exact fun h => absurd (hdel.symm.trans h) Bool.false_ne_true

end Infos

section Nodes

variable {info : NodeInfo} {children : List Node} {t c old new : Node} {cs : List Node}

theorem below_concat (h : (( cs ++ [c]).map Node.name).Nodup) (name : CString) :
    below (cs ++ [c]) name = if name = c.name then meaning c else below cs name := by
  rw [List.map_append, List.nodup_append'] at h
  have hlive := live_concat (!·.deleted) (fun b hb (hname : b.name = c.name) =>
    h.2.2 (List.mem_map_of_mem hb) (List.mem_singleton.mpr hname)) name
  split
  · next hname => exact below_of_live (hlive.trans (if_pos hname))
  · next hname =>
    have hsame : childOf name (cs ++ [c]) = childOf name cs := hlive.trans (if_neg hname)
    exact funext fun p => by rw [below, hsame, below]

theorem facts_defined {name : CString} {proplist : List Property} (labels : List CString)
    (h : (proplist.map Property.name).Nodup) :
    (NodeInfo.actions { name, proplist, labels := labels.map fun label => { label } }).foldl
      (fun o a => a.onFacts o) (some .empty) =
      some (NodeInfo.facts { name, proplist, labels := labels.map fun label => { label } }) := by
  have hempty : (Facts.empty : Facts CString (List Byte) CString) = NodeInfo.facts {} := by
    refine Facts.ext' (fun _ => rfl) fun l => ⟨False.elim, ?_⟩
    rintro ⟨x, hx, -⟩
    exact List.not_mem_nil hx
  have hlabels : NodeInfo.facts { labels := mergeLabels [] (labels.map fun label => { label }) } =
      NodeInfo.facts { name, labels := labels.map fun label => { label } } := by
    refine Facts.ext' (fun _ => rfl) fun l => (labelled_mergeLabels [] _).trans ?_
    simp [Labelled, NodeInfo.facts]
  rw [NodeInfo.actions, List.foldl_append, hempty, facts_mergeLabels, hlabels]
  induction proplist using List.reverseRecOn with
  | nil => rfl
  | append_singleton props p ih =>
    rw [List.map_append, List.foldl_append, ih (h.sublist ((List.sublist_append_left _ _).map _))]
    exact congrArg some (facts_concat { name, labels := _ } h).symm

/-- What a child of a definition changes below its name. -/
def change (c : Node) : DtStore → DtStore := if c.deleted then fun _ => .none else applyAll (edits c)

theorem applyAll_childEdits (cs ds : List Node) (s : DtStore) :
    applyAll (childEdits (cs ++ ds)) s = applyAll (childEdits ds) (applyAll (childEdits cs) s) := by
  induction cs generalizing s with
  | nil => rfl
  | cons c cs ih => rw [List.cons_append, childEdits, childEdits, applyAll_append, ih, applyAll_append]

theorem applyAll_childEdits_singleton (c : Node) (s : DtStore) :
    applyAll (childEdits [c]) s = within [c.name] (change c) s := by
  rw [childEdits, childEdits, List.append_nil, change]
  split
  · exact apply_erase [c.name] s
  · exact applyAll_beneath [c.name] (edits c) s

/-- What a definition says where there is nothing. -/
theorem meaning_eq_edits (h : Defined t) (halive : t.deleted = false) :
    meaning t = applyAll (edits t) .none := by
  induction h with
  | deletion name => cases halive
  | @node name proplist labels children hprops hnames hchildren ih =>
    have hempty : Edit.apply ⟨[], .make⟩ (.none : DtStore) = .node Facts.empty fun _ => .none :=
      funext fun p => by cases p <;> rfl
    rw [meaning_mk rfl, edits, applyAll_cons, hempty, applyAll_append,
      applyAll_node (actions_ne_erase _) _ _ (facts_defined labels hprops)]
    clear halive
    induction children using List.reverseRecOn with
    | nil => rfl
    | append_singleton cs c ihs =>
      have hrest := ihs (hnames.sublist ((List.sublist_append_left _ _).map _))
        (fun c hc => hchildren c (List.mem_append_left _ hc)) fun c hc => ih c (List.mem_append_left _ hc)
      have hnew : ∀ b ∈ cs, b.name ≠ c.name := by
        rw [List.map_append, List.nodup_append'] at hnames
        exact fun b hb hname => hnames.2.2 (List.mem_map_of_mem hb) (List.mem_singleton.mpr hname)
      have hc : c ∈ cs ++ [c] := List.mem_append_right _ (List.mem_singleton.mpr rfl)
      rw [applyAll_childEdits, ← hrest, applyAll_childEdits_singleton]
      refine within_node (fun name hname => ?_) ?_
      · rw [below_concat hnames, if_neg hname]
      · rw [below_concat hnames, if_pos rfl, below_of_none (live_eq_none hnew), change]
        split
        · next hdel => exact meaning_of_deleted hdel
        · next hdel => exact ih c hc (Bool.not_eq_true _ ▸ hdel)

theorem info_mergeChildren (old : Node) (cs : List Node) : (mergeChildren old cs).info = old.info := by
  induction cs generalizing old with
  | nil => rw [mergeChildren]
  | cons c cs ih =>
    rw [mergeChildren, ih]
    split
    · rfl
    · split <;> rfl

theorem info_mergeNodes (old new : Node) :
    (mergeNodes old new).deleted = false ∧ (mergeNodes old new).name = old.name := by
  obtain ⟨info, children⟩ := new
  rw [mergeNodes, Node.deleted, Node.name, info_mergeChildren]
  exact info_mergeInfo old.info info

/-- Merging a definition makes its edits, whatever it is merged into. -/
def Merges (new : Node) : Prop := ∀ old, Sound old →
  meaning (mergeNodes old new) = applyAll (edits new) (meaning old) ∧ Sound (mergeNodes old new)

theorem Orderly.of_alive {children' : List Node} (h : Orderly info children) (halive : info.deleted = false)
    (hnames : (children'.map Node.name).Nodup) : Orderly info children' :=
  ⟨h.props, hnames, h.deadLabels, h.deadProps, fun hdel => absurd (halive.symm.trans hdel) Bool.false_ne_true⟩

/-- A child is replaced, and what it says is changed. -/
theorem replaceChild_spec {g : DtStore → DtStore} {pre post : List Node} {a b : Node}
    (h : Sound (.mk info (pre ++ a :: post))) (halive : info.deleted = false) (hname : b.name = a.name)
    (hb : Sound b) (hmeaning : meaning b = g (meaning a)) :
    meaning (.mk info (pre ++ b :: post)) = within [a.name] g (meaning (.mk info (pre ++ a :: post))) ∧
      Sound (.mk info (pre ++ b :: post)) := by
  obtain ⟨hold, hnew⟩ := live_replace (!·.deleted) h.orderly.names hname
  constructor
  · rw [meaning_mk halive, meaning_mk halive]
    refine within_node (fun name hne => ?_) ?_
    · have hsame : childOf name (pre ++ b :: post) = childOf name (pre ++ a :: post) :=
        (hnew name).trans (if_neg hne)
      exact funext fun p => by rw [below, hsame, below]
    · rw [below_of_live ((hnew a.name).trans (if_pos rfl)), below_of_live hold, hmeaning]
  · have hnames : ((pre ++ b :: post).map Node.name).Nodup := by
      have hnames := h.orderly.names
      rw [List.map_append, List.map_cons] at hnames ⊢
      rw [hname]
      exact hnames
    refine .mk (h.orderly.of_alive halive hnames) fun c hc => ?_
    obtain hc | hc := List.mem_append.mp hc
    · exact h.of_mem (List.mem_append_left _ hc)
    · obtain rfl | hc := List.mem_cons.mp hc
      · exact hb
      · exact h.of_mem (List.mem_append_right _ (List.mem_cons_of_mem _ hc))

theorem updateChild_spec {f : Node → Node} {g : DtStore → DtStore} {children' : List Node} {name : CString}
    (h : Sound (.mk info children)) (halive : info.deleted = false) (hname : ∀ a, (f a).name = a.name)
    (hupdate : updateFirst (·.name = name) f children = some children')
    (hf : ∀ a, Sound a → meaning (f a) = g (meaning a) ∧ Sound (f a)) :
    meaning (.mk info children') = within [name] g (meaning (.mk info children)) ∧ Sound (.mk info children') := by
  obtain ⟨pre, a, post, rfl, hq, rfl⟩ := updateFirst_eq_some hupdate
  obtain rfl : a.name = name := of_decide_eq_true hq
  obtain ⟨hmeaning, hsound⟩ := hf a (h.of_mem (List.mem_append_right _ List.mem_cons_self))
  exact replaceChild_spec h halive (hname a) hsound hmeaning

theorem mergeChild_spec (h : Sound (.mk info children)) (halive : info.deleted = false) (hc : Defined c)
    (hmerges : c.deleted = false → Merges c) :
    let t := if c.deleted then deleteNodeByName (.mk info children) c.name
      else match updateFirst (·.name = c.name) (fun oldChild => mergeNodes oldChild c) children with
        | some children => .mk info children
        | none => addChild (.mk info children) c
    meaning t = within [c.name] (change c) (meaning (.mk info children)) ∧ Sound t := by
  dsimp only
  have hmissing : ∀ {f}, updateFirst (fun b : Node => decide (b.name = c.name)) f children = none →
      ∀ b ∈ children, b.name ≠ c.name := fun hupdate b hb => of_decide_eq_false (updateFirst_eq_none.mp hupdate b hb)
  cases hdel : c.deleted with
  | true =>
    rw [if_pos rfl, change, if_pos hdel, deleteNodeByName, Node.children_mk, Node.info_mk]
    cases hupdate : updateFirst (·.name = c.name) deleteNode children with
    | some children' =>
      exact updateChild_spec h halive (fun a => (info_deleteNode a).2) hupdate fun a ha =>
        ⟨meaning_of_deleted (info_deleteNode a).1, sound_deleteNode ha⟩
    | none =>
      refine ⟨?_, h⟩
      rw [Option.getD_none, meaning_mk halive]
      exact within_node (fun _ _ => rfl) (below_of_none (live_eq_none (hmissing hupdate)))
  | false =>
    rw [if_neg Bool.false_ne_true, change, hdel, if_neg Bool.false_ne_true]
    split
    · next children' hupdate =>
      exact updateChild_spec h halive (fun a => (info_mergeNodes a c).2) hupdate fun a ha => hmerges hdel a ha
    · next hupdate =>
      have hnames : ((children ++ [c]).map Node.name).Nodup := by
        rw [List.map_append, List.nodup_append']
        refine ⟨h.orderly.names, List.nodup_singleton _, fun name hmem hname => ?_⟩
        obtain ⟨b, hb, rfl⟩ := List.mem_map.mp hmem
        exact hmissing hupdate b hb (List.mem_singleton.mp hname)
      constructor
      · rw [addChild, Node.info_mk, Node.children_mk, meaning_mk halive, meaning_mk halive]
        refine within_node (fun name hne => ?_) ?_
        · rw [below_concat hnames, if_neg hne]
        · rw [below_concat hnames, if_pos rfl, below_of_none (live_eq_none (hmissing hupdate)),
            meaning_eq_edits hc hdel]
      · refine .mk (h.orderly.of_alive halive hnames) fun b hb => ?_
        obtain hb | hb := List.mem_append.mp hb
        · exact h.of_mem hb
        · exact List.mem_singleton.mp hb ▸ hc.sound

theorem mergeChildren_spec (hcs : ∀ c ∈ cs, Defined c ∧ (c.deleted = false → Merges c)) (h : Sound old)
    (halive : old.deleted = false) :
    meaning (mergeChildren old cs) = applyAll (childEdits cs) (meaning old) ∧ Sound (mergeChildren old cs) := by
  induction cs generalizing old with
  | nil => exact ⟨rfl, h⟩
  | cons c cs ih =>
    obtain ⟨info, children⟩ := old
    obtain ⟨hdefined, hmerges⟩ := hcs c List.mem_cons_self
    obtain ⟨hstep, hsound⟩ := mergeChild_spec h halive hdefined hmerges
    have hinfo := info_mergeChildren (.mk info children) [c]
    rw [mergeChildren, mergeChildren] at hinfo
    obtain ⟨hrest, hlast⟩ := ih (fun c hc => hcs c (List.mem_cons_of_mem _ hc)) hsound
      ((congrArg NodeInfo.deleted hinfo).trans halive)
    rw [mergeChildren]
    refine ⟨hrest.trans ?_, hlast⟩
    rw [hstep, ← applyAll_childEdits_singleton, ← applyAll_childEdits, List.singleton_append]

/-- Merging a definition into a tree makes the edits that the definition stands for. -/
theorem merges_of_defined (h : Defined new) (halive : new.deleted = false) : Merges new := by
  induction h with
  | deletion name => cases halive
  | @node name proplist labels children hprops hnames hchildren ih =>
    rintro ⟨info, oldChildren⟩ hold
    let newInfo : NodeInfo := { name, proplist, labels := labels.map fun label => { label } }
    obtain ⟨hinfo, horderly⟩ := meaning_mergeInfo hold.orderly newInfo
    have hchildrenMerge := mergeChildren_spec (fun c hc => ⟨hchildren c hc, ih c hc⟩)
      (Sound.mk horderly fun c hc => hold.of_mem hc) (info_mergeInfo info newInfo).1
    rw [mergeNodes, edits, ← List.cons_append, applyAll_append, Node.info_mk, Node.children_mk, ← hinfo]
    exact hchildrenMerge

end Nodes

end PynqPrio.Dtc
