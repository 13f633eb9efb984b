import PynqPrio.DtcPhandles

/-!
# References become handles

After the two checks a cell with a reference holds the handle of the node that it refers to, the
node bears the handle in a property, and no other node has it.
-/
namespace PynqPrio.Dtc
open Formats Stores
open Libfdt (phandleString linuxPhandleString)

section Loops

variable {α σ ε : Type*} {f : σ → α → Except ε σ} {l : List α}

/-- A loop whose iterations keep `I` and do `D` for their element, for what `R` keeps of `D`. -/
theorem foldlM_all {I : σ → Prop} {R : σ → σ → Prop} {D : α → σ → Prop} (hrefl : ∀ s, R s s)
    (htrans : ∀ s₁ s₂ s₃, R s₁ s₂ → R s₂ s₃ → R s₁ s₃) (hkeep : ∀ a ∈ l, ∀ s s', R s s' → D a s → D a s')
    (hstep : ∀ a ∈ l, ∀ s, I s → ∃ s', f s a = .ok s' ∧ I s' ∧ R s s' ∧ D a s') (s : σ) (hs : I s) :
    ∃ s', l.foldlM f s = .ok s' ∧ I s' ∧ R s s' ∧ ∀ a ∈ l, D a s' := by
  induction l generalizing s with
  | nil => exact ⟨s, rfl, hs, hrefl s, nofun⟩
  | cons a l ih =>
    obtain ⟨s₁, hrun, hs₁, hR, hD⟩ := hstep a List.mem_cons_self s hs
    obtain ⟨s₂, hrest, hs₂, hR', hall⟩ := ih (fun b hb => hkeep b (List.mem_cons_of_mem a hb))
      (fun b hb => hstep b (List.mem_cons_of_mem a hb)) s₁ hs₁
    refine ⟨s₂, ?_, hs₂, htrans _ _ _ hR hR', List.forall_mem_cons.mpr ⟨?_, hall⟩⟩
    · rw [List.foldlM_cons, hrun]
      exact hrest
    · exact hkeep a List.mem_cons_self _ _ hR' hD

/-- A loop whose iterations keep what holds of the elements that are left. -/
theorem foldlM_rest {I : List α → σ → Prop}
    (hstep : ∀ a rest s, (a :: rest) <:+ l → I (a :: rest) s → ∃ s', f s a = .ok s' ∧ I rest s') (s : σ)
    (hs : I l s) : ∃ s', l.foldlM f s = .ok s' ∧ I [] s' := by
  induction l generalizing s with
  | nil => exact ⟨s, rfl, hs⟩
  | cons a l ih =>
    obtain ⟨s₁, hrun, hs₁⟩ := hstep a l s List.suffix_rfl hs
    obtain ⟨s₂, hrest, hs₂⟩ := ih (fun b rest s hsuffix =>
      hstep b rest s (hsuffix.trans (List.suffix_cons a l))) s₁ hs₁
    refine ⟨s₂, ?_, hs₂⟩
    rw [List.foldlM_cons, hrun]
    exact hrest

end Loops

section Handles

def phandleAt (pos : List ℕ) (t : Node) : BitVec 32 := (infoAt pos t).elim 0 (·.phandle)

variable {t : Node} {pos pos' : List ℕ} {phandle c : BitVec 32} {fuel : ℕ}

theorem phandleAt_cons {info : NodeInfo} {children : List Node} {i : ℕ} {c : Node}
    (hc : children[i]? = some c) (pos : List ℕ) :
    phandleAt (i :: pos) (.mk info children) = phandleAt pos c := by
  rw [phandleAt, infoAt, Node.children_mk, hc, Option.bind_some, phandleAt]

theorem find?_map_cons {q : List ℕ → Bool} (i : ℕ) (l : List (List ℕ)) :
    (l.map (i :: ·)).find? q = (l.find? fun pos => q (i :: pos)).map (i :: ·) := by
  rw [List.find?_map]
  rfl

/-- The search visits the live nodes in the order of the checks. -/
theorem getNodeByPhandle_eq_find (halive : t.deleted = false) : getNodeByPhandle phandle t =
    (livePositions t).find? fun pos => phandleAt pos t = phandle := by
  induction t with
  | mk info children ih =>
    rw [getNodeByPhandle, livePositions, List.find?_cons]
    by_cases hhere : info.phandle = phandle
    · have hroot : phandleAt [] (.mk info children) = phandle := hhere
      have hinfo : ¬info.deleted = true := Bool.eq_false_iff.mp halive
      rw [if_pos hhere, hroot, decide_eq_true rfl, if_neg hinfo]
    · have hroot : phandleAt [] (.mk info children) ≠ phandle := hhere
      rw [if_neg hhere, decide_eq_false hroot]
      suffices h : ∀ pre, ∀ cs, children = pre ++ cs → childByPhandle phandle cs pre.length =
          (livePositionsBelow cs pre.length).find? fun pos => phandleAt pos (.mk info children) = phandle
        from h [] children rfl
      intro pre cs
      induction cs generalizing pre with
      | nil => exact fun _ => rfl
      | cons c cs ihs =>
        intro hsplit
        have hc : children[pre.length]? = some c := by simp [hsplit]
        have hrest := ihs (pre ++ [c]) (by rw [hsplit, List.append_assoc, List.singleton_append])
        rw [List.length_append, List.length_singleton] at hrest
        rw [childByPhandle, livePositionsBelow, List.find?_append, hrest]
        cases hdel : c.deleted with
        | true => rfl
        | false =>
          have hbelow := ih c (hsplit ▸ List.mem_append_right pre List.mem_cons_self) hdel
          rw [if_neg Bool.false_ne_true, if_neg Bool.false_ne_true, find?_map_cons]
          simp only [phandleAt_cons hc]
          rw [← hbelow]
          cases getNodeByPhandle phandle c <;> rfl

theorem getNodeByPhandle_eq_none (halive : t.deleted = false) :
    getNodeByPhandle phandle t = none ↔ ∀ pos ∈ livePositions t, phandleAt pos t ≠ phandle := by
  rw [getNodeByPhandle_eq_find halive, List.find?_eq_none]
  simp

/-- A node that no other has the handle of is found by it. -/
theorem getNodeByPhandle_of_unique (halive : t.deleted = false) (hpos : pos ∈ livePositions t)
    (hunique : ∀ pos' ∈ livePositions t, phandleAt pos' t = phandleAt pos t → pos' = pos) :
    getNodeByPhandle (phandleAt pos t) t = some pos := by
  rw [getNodeByPhandle_eq_find halive]
  cases hfind : (livePositions t).find? fun pos' => phandleAt pos' t = phandleAt pos t with
  | none => exact absurd rfl (of_decide_eq_false (Bool.eq_false_iff.mpr (List.find?_eq_none.mp hfind pos hpos)))
  | some pos' =>
    have hsame := List.find?_some hfind
    exact congrArg some (hunique pos' (List.mem_of_find?_eq_some hfind) (of_decide_eq_true hsame))

/-- The handles below the counter are all taken. -/
def Taken (t : Node) (c : BitVec 32) : Prop :=
  ∀ x, 0 < x → x < c.toNat → ∃ pos ∈ livePositions t, (phandleAt pos t).toNat = x

/-- There are as many nodes as handles that are taken. -/
theorem Taken.le (h : Taken t c) : c.toNat ≤ (livePositions t).length + 1 := by
  have hsub : List.range' 1 (c.toNat - 1) ⊆ (livePositions t).map fun pos => (phandleAt pos t).toNat := by
    intro x hx
    rw [List.mem_range'_1] at hx
    obtain ⟨pos, hpos, hx⟩ := h x (by omega) (by omega)
    exact List.mem_map.mpr ⟨pos, hpos, hx⟩
  have hle := (List.subperm_of_subset List.nodup_range' hsub).length_le
  rw [List.length_range', List.length_map] at hle
  omega

theorem freePhandle_spec (halive : t.deleted = false) (hsize : (livePositions t).length < 2 ^ 32 - 2)
    (hc : 0 < c.toNat) (htaken : Taken t c) (hfuel : (livePositions t).length + 2 ≤ c.toNat + fuel) :
    ∃ phandle, freePhandle t fuel c = .ok phandle ∧ 0 < phandle.toNat ∧ phandle ≠ 0xFFFFFFFF#32 ∧
      (∀ pos ∈ livePositions t, phandleAt pos t ≠ phandle) ∧ Taken t phandle := by
  induction fuel generalizing c with
  | zero =>
    have hle := htaken.le
    omega
  | succ fuel ih =>
    have hle := htaken.le
    have hmax : c.toNat + 1 < 2 ^ 32 := by omega
    have hne : ¬(c = 0 ∨ c = 0xFFFFFFFF#32) := by
      rintro (rfl | rfl)
      · exact absurd hc (by decide)
      · exact absurd hmax (by decide)
    rw [freePhandle, if_neg hne]
    cases hfind : getNodeByPhandle c t with
    | none =>
      refine ⟨c, rfl, hc, fun h => hne (.inr h), (getNodeByPhandle_eq_none halive).mp hfind, htaken⟩
    | some pos =>
      rw [getNodeByPhandle_eq_find halive] at hfind
      have hpos := List.mem_of_find?_eq_some hfind
      have hat := List.find?_some hfind
      rw [decide_eq_true_iff] at hat
      have hnext : (c + 1).toNat = c.toNat + 1 := (BitVec.toNat_add c 1).trans (Nat.mod_eq_of_lt hmax)
      refine ih (by omega) (fun x hx hlt => ?_) (by omega)
      by_cases hxc : x = c.toNat
      · exact ⟨pos, hpos, by rw [hat, hxc]⟩
      · exact htaken x hx (by omega)

end Handles

section Infos

/-- The bytes differ in the cells of references at most. -/
structure Data.Agrees (d : Data) (val : List Byte) : Prop where
  length : val.length = d.val.length
  outside : ∀ j, (∀ m ∈ d.markers, m.type = .refPhandle → j < m.offset ∨ m.offset + 4 ≤ j) → val[j]? = d.val[j]?

/-- No reference is in the data, so nothing changes. -/
theorem Data.Agrees.eq {d : Data} {val : List Byte} (h : d.Agrees val) (hmarkers : d.markers = []) : val = d.val :=
  List.ext_getElem? fun j => h.outside j fun _ hm => absurd hm (hmarkers ▸ List.not_mem_nil)

/-- What the checks do to a node: handles stay, properties keep their number, their markers and what they
have outside of references, and a new property is one with the handle of the node. -/
structure Kept (i₀ i : NodeInfo) : Prop where
  frame : i.frame = i₀.frame
  phandle : i₀.phandle ≠ 0 → i.phandle = i₀.phandle
  props : ∀ (k : ℕ) (p : Property), i₀.proplist[k]? = some p →
    ∃ val : List Byte, i.proplist[k]? = some { p with val := { p.val with val } } ∧ p.val.Agrees val
  added : ∀ (k : ℕ) (p : Property), i.proplist[k]? = some p → i₀.proplist.length ≤ k → i.phandle ≠ 0 ∧
    ∃ name ∈ [phandleString, linuxPhandleString], p = buildProperty name { val := toBytes 4 i.phandle.toNat }

theorem Kept.markers {i₀ i : NodeInfo} {k : ℕ} {p : Property} (h : Kept i₀ i) (hp : i.proplist[k]? = some p)
    (hk : i₀.proplist.length ≤ k) : p.val.markers = [] := by
  obtain ⟨-, name, -, rfl⟩ := h.added k p hp hk
  rfl

theorem Kept.refl (i : NodeInfo) : Kept i i where
  frame := rfl
  phandle _ := rfl
  props _ p hp := ⟨p.val.val, hp, rfl, fun _ _ => rfl⟩
  added _ _ hp hk := absurd (List.getElem?_eq_some_iff.mp hp).1 (Nat.not_lt.mpr hk)

theorem Kept.trans {i₀ i i' : NodeInfo} (h : Kept i₀ i) (h' : Kept i i') : Kept i₀ i' where
  frame := h'.frame.trans h.frame
  phandle hi := (h'.phandle (by rwa [h.phandle hi])).trans (h.phandle hi)
  props k p hp := by
    obtain ⟨val, hval, hlen, hbytes⟩ := h.props k p hp
    obtain ⟨val', hval', hlen', hbytes'⟩ := h'.props k _ hval
    exact ⟨val', hval', hlen'.trans hlen, fun j hj => (hbytes' j hj).trans (hbytes j hj)⟩
  added k p hp hk := by
    cases hold : i.proplist[k]? with
    | none => exact h'.added k p hp (List.getElem?_eq_none_iff.mp hold)
    | some q =>
      obtain ⟨val, hval, hagrees⟩ := h'.props k q hold
      obtain rfl := hagrees.eq (h.markers hold hk)
      obtain rfl := Option.some.inj (hval.symm.trans hp)
      have hadded := h.added k q hold hk
      rwa [h'.phandle hadded.1]

variable {i : NodeInfo} {k off v : ℕ} {name : CString} {p : Property} {o : CheckOptions} {phandle : BitVec 32}

theorem kept_storeCell (h : ∀ p, i.proplist[k]? = some p → off + 4 ≤ p.val.val.length ∧
    ∃ m ∈ p.val.markers, m.type = .refPhandle ∧ m.offset = off) : Kept i (storeCell k off v i) where
  frame := rfl
  phandle _ := rfl
  props j p hp := by
    rw [storeCell]
    dsimp only
    rw [List.getElem?_modify, hp]
    by_cases hj : k = j
    · subst hj
      obtain ⟨hfits, m, hm, htype, rfl⟩ := h p hp
      have hroom : m.offset + (toBytes 4 v).length ≤ p.val.val.length := by rwa [length_toBytes]
      refine ⟨overwrite p.val.val m.offset (toBytes 4 v), by simp, length_overwrite hroom, fun j hj => ?_⟩
      refine getElem?_overwrite hroom ?_
      rw [length_toBytes]
      exact hj m hm htype
    · exact ⟨p.val.val, by simp [hj], rfl, fun _ _ => rfl⟩
  added j p hp hj := by
    rw [storeCell] at hp
    have hlt := (List.getElem?_eq_some_iff.mp hp).1
    rw [List.length_modify] at hlt
    exact absurd hlt (Nat.not_lt.mpr hj)

theorem addPhandleProperty_spec (wanted : Bool) (name : CString) (phandle : BitVec 32) (i : NodeInfo) :
    ∃ extra, addPhandleProperty wanted name phandle i = { i with proplist := i.proplist ++ extra } ∧
      ∀ p ∈ extra, p = buildProperty name { val := toBytes 4 phandle.toNat } ∧
        propOf name i.proplist = none := by
  rw [addPhandleProperty]
  split
  · next h =>
    rw [Bool.and_eq_true, Option.isNone_iff_eq_none] at h
    exact ⟨_, rfl, fun p hp => ⟨List.mem_singleton.mp hp, h.1⟩⟩
  · exact ⟨[], by rw [List.append_nil], nofun⟩

theorem propOf_append {props extra : List Property} :
    propOf name (props ++ extra) = (propOf name props).or (propOf name extra) := List.find?_append

theorem setPhandle_spec (o : CheckOptions) (phandle : BitVec 32) (i : NodeInfo) :
    ∃ extra, setPhandle o phandle i = { i with phandle, proplist := i.proplist ++ extra } ∧
      ∀ p ∈ extra, ∃ name ∈ [phandleString, linuxPhandleString],
        p = buildProperty name { val := toBytes 4 phandle.toNat } := by
  obtain ⟨extra, hextra, hmem⟩ := addPhandleProperty_spec o.legacy linuxPhandleString phandle { i with phandle }
  obtain ⟨extra', hextra', hmem'⟩ := addPhandleProperty_spec o.epapr phandleString phandle
    { i with phandle, proplist := i.proplist ++ extra }
  refine ⟨extra ++ extra', ?_, fun p hp => ?_⟩
  · rw [setPhandle, hextra, hextra', List.append_assoc]
  · obtain hp | hp := List.mem_append.mp hp
    · exact ⟨linuxPhandleString, List.mem_cons_of_mem _ List.mem_cons_self, (hmem p hp).1⟩
    · exact ⟨phandleString, List.mem_cons_self, (hmem' p hp).1⟩

theorem kept_setPhandle (hi : i.phandle = 0) (o : CheckOptions) (hphandle : phandle ≠ 0) :
    Kept i (setPhandle o phandle i) := by
  obtain ⟨extra, hextra, hmem⟩ := setPhandle_spec o phandle i
  rw [hextra]
  refine ⟨rfl, fun h => absurd hi h, fun k p hp => ⟨p.val.val, ?_, rfl, fun _ _ => rfl⟩,
    fun k p hp hk => ?_⟩
  · exact List.getElem?_append_left (List.getElem?_eq_some_iff.mp hp).1 ▸ hp
  · dsimp only at hp
    rw [List.getElem?_append_right hk] at hp
    exact ⟨hphandle, hmem p (List.mem_of_getElem? hp)⟩

/-- The properties in which a node bears its handle: each has the handle, or a reference to the node
itself that will become the handle. -/
def Bears (t₀ : Node) (pos : List ℕ) (i : NodeInfo) (name : CString) : Prop :=
  ∀ p, propOf name i.proplist = some p → p.val.val.length = 4 ∧
    ((∃ m ∈ p.val.markers, m.type = .refPhandle ∧ m.offset = 0 ∧ getNodeByRef t₀ m.ref = some pos) ∨
      (∀ m ∈ p.val.markers, m.type ≠ .refPhandle) ∧ p.val.val = toBytes 4 i.phandle.toNat ∧ i.phandle ≠ 0)

structure Borne (t₀ : Node) (pos : List ℕ) (i : NodeInfo) : Prop where
  epapr : Bears t₀ pos i phandleString
  legacy : Bears t₀ pos i linuxPhandleString
  some : i.phandle ≠ 0 → (propOf phandleString i.proplist).isSome ∨ (propOf linuxPhandleString i.proplist).isSome

theorem propOf_modify {f : Property → Property} (hname : ∀ p, (f p).name = p.name)
    (hdeleted : ∀ p, (f p).deleted = p.deleted) (name : CString) (props : List Property) (k : ℕ) :
    propOf name (props.modify k f) = propOf name props ∨
      ∃ p, props[k]? = some p ∧ propOf name props = some p ∧ propOf name (props.modify k f) = some (f p) := by
  induction props generalizing k with
  | nil =>
    rw [List.modify_nil]
    exact .inl rfl
  | cons p props ih =>
    cases k with
    | zero =>
      rw [List.modify_zero_cons, propOf, propOf, live, live, List.find?_cons, List.find?_cons, hname, hdeleted]
      cases hq : !p.deleted && decide (p.name = name) with
      | true => exact .inr ⟨p, rfl, rfl, rfl⟩
      | false => exact .inl rfl
    | succ k =>
      rw [List.modify_succ_cons, propOf, propOf, live, live, List.find?_cons, List.find?_cons]
      cases hq : !p.deleted && decide (p.name = name) with
      | true => exact .inl rfl
      | false => exact ih k

theorem isSome_addPhandleProperty (name : CString) (phandle : BitVec 32) (i : NodeInfo) :
    (propOf name (addPhandleProperty true name phandle i).proplist).isSome := by
  rw [addPhandleProperty, Bool.and_true]
  cases h : propOf name i.proplist with
  | none =>
    have hnew : (propOf name [buildProperty name { val := dataAppendCell [] phandle.toNat }]).isSome := by
      simp [propOf, live, buildProperty]
    rw [Option.isNone_none, if_pos rfl, addProperty]
    dsimp only
    rw [propOf_append, h, Option.none_or, hnew]
  | some p =>
    rw [Option.isNone_some, if_neg Bool.false_ne_true, h]
    rfl

theorem isSome_propOf_append {props : List Property} (h : (propOf name props).isSome) (extra : List Property) :
    (propOf name (props ++ extra)).isSome := by
  rw [propOf_append, Option.isSome_or, h, Bool.true_or]

variable {t₀ : Node} {pos : List ℕ}

theorem borne_storeCell (h : Borne t₀ pos i) (hp : i.proplist[k]? = some p)
    (hmarker : ∃ m ∈ p.val.markers, m.type = .refPhandle) (hlen : off + 4 ≤ p.val.val.length) :
    Borne t₀ pos (storeCell k off v i) := by
  have hmodify := fun name => propOf_modify (f := fun p =>
    { p with val := { p.val with val := overwrite p.val.val off (toBytes 4 v) } }) (fun _ => rfl) (fun _ => rfl)
    name i.proplist k
  have hbears : ∀ name, Bears t₀ pos i name → Bears t₀ pos (storeCell k off v i) name := by
    intro name hname q hq
    obtain hsame | ⟨p', hp', hfound, hchanged⟩ := hmodify name
    · exact hname q (hsame.symm.trans hq)
    · obtain rfl := Option.some.inj (hp.symm.trans hp')
      obtain rfl := Option.some.inj (hchanged.symm.trans hq)
      obtain ⟨hfour, hself | ⟨hnone, -⟩⟩ := hname p hfound
      · refine ⟨?_, .inl hself⟩
        dsimp only
        rw [length_overwrite, hfour]
        rw [length_toBytes]
        exact hlen
      · obtain ⟨m, hm, htype⟩ := hmarker
        exact absurd htype (hnone m hm)
  have hsome : ∀ name, (propOf name i.proplist).isSome → (propOf name (storeCell k off v i).proplist).isSome := by
    intro name hname
    obtain hsame | ⟨p', -, -, hchanged⟩ := hmodify name
    · exact (congrArg Option.isSome hsame).trans hname
    · exact congrArg Option.isSome hchanged
  exact ⟨hbears _ h.epapr, hbears _ h.legacy, fun hi => (h.some hi).imp (hsome _) (hsome _)⟩

theorem borne_setPhandle (h : Borne t₀ pos i) (hi : i.phandle = 0) (hphandle : phandle ≠ 0)
    (hformat : o.legacy = true ∨ o.epapr = true) : Borne t₀ pos (setPhandle o phandle i) := by
  obtain ⟨extra, hextra, hmem⟩ := setPhandle_spec o phandle i
  have hbears : ∀ name, Bears t₀ pos i name → Bears t₀ pos (setPhandle o phandle i) name := by
    intro name hname p hp
    rw [hextra] at hp ⊢
    dsimp only at hp ⊢
    rw [propOf_append] at hp
    obtain hp | ⟨-, hp⟩ := Option.or_eq_some_iff.mp hp
    · obtain ⟨hfour, hself | ⟨-, -, hne⟩⟩ := hname p hp
      · exact ⟨hfour, .inl hself⟩
      · exact absurd hi hne
    · obtain ⟨name', -, rfl⟩ := hmem p (live_eq_some hp).1
      exact ⟨length_toBytes 4 _, .inr ⟨nofun, rfl, hphandle⟩⟩
  refine ⟨hbears _ h.epapr, hbears _ h.legacy, fun _ => ?_⟩
  obtain hlegacy | hepapr := hformat
  · right
    obtain ⟨extra', hextra', -⟩ := addPhandleProperty_spec o.epapr phandleString phandle
      (addPhandleProperty o.legacy linuxPhandleString phandle { i with phandle })
    rw [setPhandle, hextra', hlegacy]
    exact isSome_propOf_append (isSome_addPhandleProperty linuxPhandleString phandle _) extra'
  · left
    rw [setPhandle, hepapr]
    exact isSome_addPhandleProperty phandleString phandle _

end Infos

section Invariants

variable {t₀ t : Node} {s s' : CheckState} {pos pos' target : List ℕ} {i : NodeInfo} {f : NodeInfo → NodeInfo}
  {o : CheckOptions} {k : ℕ} {m : Marker} {p : Property} {c : BitVec 32}

theorem phandleAt_updateInfoAt_self (hinfo : infoAt pos t = some i) :
    phandleAt pos (updateInfoAt pos f t) = (f i).phandle := by
  rw [phandleAt, infoAt_updateInfoAt_self, hinfo]
  rfl

theorem phandleAt_updateInfoAt_of_ne (h : pos' ≠ pos) (t : Node) :
    phandleAt pos' (updateInfoAt pos f t) = phandleAt pos' t := by
  rw [phandleAt, infoAt_updateInfoAt_of_ne h, phandleAt]

theorem phandleAt_eq (hinfo : infoAt pos t = some i) : phandleAt pos t = i.phandle := by
  rw [phandleAt, hinfo]
  rfl

/-- No two live nodes have the same handle, and none has the handle that stands for none. -/
structure Distinct (t : Node) : Prop where
  unique : ∀ pos ∈ livePositions t, ∀ pos' ∈ livePositions t,
    phandleAt pos t = phandleAt pos' t → phandleAt pos t ≠ 0 → pos = pos'
  valid : ∀ pos ∈ livePositions t, phandleAt pos t ≠ 0xFFFFFFFF#32

/-- A node gets a handle that no node has. -/
theorem Distinct.update (h : Distinct t) (hinfo : infoAt pos t = some i) (hframe : ∀ i, (f i).frame = i.frame)
    (hphandle : (f i).phandle = i.phandle ∨ i.phandle = 0 ∧ (f i).phandle ≠ 0xFFFFFFFF#32 ∧
      ∀ pos' ∈ livePositions t, phandleAt pos' t ≠ (f i).phandle) : Distinct (updateInfoAt pos f t) := by
  have hself := phandleAt_updateInfoAt_self (f := f) hinfo
  have hat := phandleAt_eq hinfo
  have hlive := livePositions_of_skeleton (skeleton_updateInfoAt hframe pos t)
  -- another node with the handle of the node would have had it before
  have hother : ∀ pos' ∈ livePositions t, pos ∈ livePositions t → pos' ≠ pos →
      phandleAt pos' t = (f i).phandle → (f i).phandle ≠ 0 → False := by
    intro pos' hpos' hpos hdiffer heq hne
    obtain hphandle | ⟨-, -, hfresh⟩ := hphandle
    · rw [hphandle, ← hat] at heq
      exact hdiffer (h.unique pos' hpos' pos hpos heq fun hzero => hne (by rw [hphandle, ← hat, ← heq, hzero]))
    · exact hfresh pos' hpos' heq
  refine ⟨fun pos₁ hpos₁ pos₂ hpos₂ heq hne => ?_, fun pos' hpos' => ?_⟩
  · rw [hlive] at hpos₁ hpos₂
    by_cases h₁ : pos₁ = pos
    · subst h₁
      by_contra h₂
      rw [hself] at heq hne
      rw [phandleAt_updateInfoAt_of_ne (Ne.symm h₂)] at heq
      exact hother pos₂ hpos₂ hpos₁ (Ne.symm h₂) heq.symm hne
    · rw [phandleAt_updateInfoAt_of_ne h₁] at heq hne
      by_cases h₂ : pos₂ = pos
      · subst h₂
        rw [hself] at heq
        exact (hother pos₁ hpos₁ hpos₂ h₁ heq (heq ▸ hne)).elim
      · rw [phandleAt_updateInfoAt_of_ne h₂] at heq
        exact h.unique pos₁ hpos₁ pos₂ hpos₂ heq hne
  · rw [hlive] at hpos'
    by_cases hpos : pos' = pos
    · subst hpos
      rw [hself]
      obtain heq | ⟨-, hne, -⟩ := hphandle
      · rw [heq, ← hat]
        exact h.valid pos' hpos'
      · exact hne
    · rw [phandleAt_updateInfoAt_of_ne hpos]
      exact h.valid pos' hpos'

/-- What the checks keep of the tree `t₀` that they start from. -/
structure Invariant (t₀ : Node) (s : CheckState) : Prop where
  skeleton : skeleton s.tree = skeleton t₀
  kept : ∀ pos i₀, infoAt pos t₀ = some i₀ → ∃ i, infoAt pos s.tree = some i ∧ Kept i₀ i
  distinct : Distinct s.tree
  taken : Taken s.tree s.nextPhandle
  next : 0 < s.nextPhandle.toNat
  borne : ∀ pos ∈ livePositions t₀, ∀ i, infoAt pos s.tree = some i → Borne t₀ pos i

theorem Invariant.live (h : Invariant t₀ s) : livePositions s.tree = livePositions t₀ :=
  livePositions_of_skeleton h.skeleton

/-- Handles that are there stay. -/
theorem Taken.of_kept (h : Taken t c) (hskeleton : Dtc.skeleton s.tree = Dtc.skeleton t)
    (hkept : ∀ pos, phandleAt pos t ≠ 0 → phandleAt pos s.tree = phandleAt pos t) : Taken s.tree c := by
  intro x hx hlt
  obtain ⟨pos, hpos, hat⟩ := h x hx hlt
  refine ⟨pos, by rwa [livePositions_of_skeleton hskeleton], ?_⟩
  rw [hkept pos (fun hzero => ?_), hat]
  rw [hzero] at hat
  exact absurd hat.symm hx.ne'

/-- A node is changed, and its handle only where it had none and no other node has the new one. -/
theorem Invariant.update (h : Invariant t₀ s) (hinfo : infoAt pos s.tree = some i)
    (hframe : ∀ i, (f i).frame = i.frame) (hkept : Kept i (f i))
    (hborne : pos ∈ livePositions t₀ → Borne t₀ pos (f i))
    (hphandle : (f i).phandle = i.phandle ∨ i.phandle = 0 ∧ (f i).phandle ≠ 0xFFFFFFFF#32 ∧
      ∀ pos' ∈ livePositions s.tree, phandleAt pos' s.tree ≠ (f i).phandle)
    (hnext : 0 < c.toNat) (htaken : Taken s.tree c) (failed : Bool) :
    Invariant t₀ ⟨updateInfoAt pos f s.tree, c, failed⟩ := by
  have hskeleton := skeleton_updateInfoAt hframe pos s.tree
  have hself := phandleAt_updateInfoAt_self (f := f) hinfo
  have hat := phandleAt_eq hinfo
  have hsame : ∀ pos', phandleAt pos' s.tree ≠ 0 →
      phandleAt pos' (updateInfoAt pos f s.tree) = phandleAt pos' s.tree := by
    intro pos' hne
    by_cases hpos : pos' = pos
    · subst hpos
      rw [hself, hat]
      exact hphandle.elim id fun hzero => absurd (hat.trans hzero.1) hne
    · exact phandleAt_updateInfoAt_of_ne hpos s.tree
  refine ⟨hskeleton.trans h.skeleton, fun pos' i₀ hi₀ => ?_, h.distinct.update hinfo hframe hphandle,
    htaken.of_kept (s := ⟨_, c, failed⟩) hskeleton hsame, hnext, fun pos' hpos' i' hi' => ?_⟩
  · obtain ⟨i', hi', hkept'⟩ := h.kept pos' i₀ hi₀
    by_cases hpos : pos' = pos
    · subst hpos
      obtain rfl := Option.some.inj (hinfo.symm.trans hi')
      exact ⟨f i, by rw [infoAt_updateInfoAt_self, hinfo]; rfl, hkept'.trans hkept⟩
    · exact ⟨i', by rw [infoAt_updateInfoAt_of_ne hpos, hi'], hkept'⟩
  · dsimp only at hi'
    by_cases hpos : pos' = pos
    · subst hpos
      rw [infoAt_updateInfoAt_self, hinfo] at hi'
      obtain rfl := Option.some.inj hi'
      exact hborne hpos'
    · rw [infoAt_updateInfoAt_of_ne hpos] at hi'
      exact h.borne pos' hpos' i' hi'

/-- The markers of references in a value: their cells lie in the value and apart. -/
structure Data.Marked (d : Data) : Prop where
  bound : ∀ m ∈ d.markers, m.type = .refPhandle → m.offset + 4 ≤ d.val.length
  apart : ∀ m ∈ d.markers, ∀ m' ∈ d.markers, m.type = .refPhandle → m'.type = .refPhandle → m ≠ m' →
    m.offset + 4 ≤ m'.offset ∨ m'.offset + 4 ≤ m.offset

def Node.Marked (t : Node) : Prop :=
  ∀ pos ∈ livePositions t, ∀ k p, propAt pos k t = some p → p.val.Marked

/-- A cell with a reference, in a property of a node that the checks visit. -/
structure IsReference (t₀ : Node) (pos : List ℕ) (k : ℕ) (m : Marker) (p : Property) : Prop where
  live : pos ∈ livePositions t₀
  found : propAt pos k t₀ = some p
  alive : p.deleted = false
  marker : m ∈ p.val.markers
  type : m.type = .refPhandle

def HasCell (t : Node) (pos : List ℕ) (k off v : ℕ) : Prop :=
  ∃ p, propAt pos k t = some p ∧ HasAt p.val.val off (toBytes 4 v)

/-- The cell has the handle of the node that it refers to. Where there is none, the cell of a plugin is
left open, and the check of anything else fails. -/
def Fixed (o : CheckOptions) (t₀ : Node) (pos : List ℕ) (k : ℕ) (m : Marker) (s : CheckState) : Prop :=
  match getNodeByRef t₀ m.ref with
  | some target => phandleAt target s.tree ≠ 0 ∧ HasCell s.tree pos k m.offset (phandleAt target s.tree).toNat
  | none => if o.plugin then HasCell s.tree pos k m.offset (2 ^ 32 - 1) else s.failed = true

/-- What has been fixed stays so, and no property goes. -/
structure Later (o : CheckOptions) (t₀ : Node) (s s' : CheckState) : Prop where
  fixed : ∀ pos k m p, IsReference t₀ pos k m p → Fixed o t₀ pos k m s → Fixed o t₀ pos k m s'
  props : ∀ pos k p, propAt pos k s.tree = some p → ∃ p', propAt pos k s'.tree = some p'

theorem Invariant.propAt (h : Invariant t₀ s) (hp : propAt pos k t₀ = some p) :
    ∃ val : List Byte, Dtc.propAt pos k s.tree = some { p with val := { p.val with val } } ∧ p.val.Agrees val := by
  obtain ⟨i₀, hi₀, hp⟩ := Option.bind_eq_some_iff.mp hp
  obtain ⟨i, hi, hkept⟩ := h.kept pos i₀ hi₀
  obtain ⟨val, hval, hagrees⟩ := hkept.props k p hp
  exact ⟨val, by rw [Dtc.propAt, hi]; exact hval, hagrees⟩

theorem propAt_updateInfoAt_self (hinfo : infoAt pos t = some i) :
    propAt pos k (updateInfoAt pos f t) = (f i).proplist[k]? := by
  rw [propAt, infoAt_updateInfoAt_self, hinfo]
  rfl

theorem propAt_updateInfoAt_of_ne (h : pos' ≠ pos) (t : Node) :
    propAt pos' k (updateInfoAt pos f t) = propAt pos' k t := by
  rw [propAt, infoAt_updateInfoAt_of_ne h, propAt]

theorem storeCell_getElem? (hp : i.proplist[k]? = some p) (off v : ℕ) : (storeCell k off v i).proplist[k]? =
    some { p with val := { p.val with val := overwrite p.val.val off (toBytes 4 v) } } := by
  rw [storeCell]
  dsimp only
  rw [List.getElem?_modify_eq, hp]
  rfl

theorem storeCell_getElem?_of_ne {k' off v : ℕ} (h : k ≠ k') :
    (storeCell k off v i).proplist[k']? = i.proplist[k']? :=
  List.getElem?_modify_ne _ i.proplist h

theorem propAt_storeCell {k' off v : ℕ} (hp : propAt pos' k' t = some p) :
    ∃ p', propAt pos' k' (updateInfoAt pos (storeCell k off v) t) = some p' := by
  by_cases hpos : pos' = pos
  · subst hpos
    obtain ⟨i, hi, hp⟩ := Option.bind_eq_some_iff.mp hp
    rw [propAt_updateInfoAt_self hi, storeCell]
    dsimp only
    rw [List.getElem?_modify, hp]
    exact ⟨_, rfl⟩
  · exact ⟨p, by rw [propAt_updateInfoAt_of_ne hpos, hp]⟩

/-- A cell is stored, and the others keep what they have. -/
theorem Invariant.store (h : Invariant t₀ s) (href : IsReference t₀ pos k m p) (hmarked : p.val.Marked)
    (v : ℕ) (failed : Bool) {s' : CheckState}
    (hs' : s' = ⟨updateInfoAt pos (storeCell k m.offset v) s.tree, s.nextPhandle, failed⟩) :
    Invariant t₀ s' ∧ HasCell s'.tree pos k m.offset v ∧
      (∀ pos', phandleAt pos' s'.tree = phandleAt pos' s.tree) ∧
      ∀ pos' k' m' p' v', IsReference t₀ pos' k' m' p' → (pos' = pos → k' = k → m' ≠ m) →
        HasCell s.tree pos' k' m'.offset v' → HasCell s'.tree pos' k' m'.offset v' := by
  subst hs'
  obtain ⟨val, hval, hlen, -⟩ := h.propAt href.found
  obtain ⟨i, hinfo, hi⟩ := Option.bind_eq_some_iff.mp hval
  have hbound := hmarked.bound m href.marker href.type
  have hfits : m.offset + 4 ≤ val.length := hlen ▸ hbound
  have hphandle : ∀ pos', phandleAt pos' (updateInfoAt pos (storeCell k m.offset v) s.tree) =
      phandleAt pos' s.tree := by
    intro pos'
    by_cases hpos : pos' = pos
    · subst hpos
      rw [phandleAt_updateInfoAt_self hinfo, phandleAt_eq hinfo]
      rfl
    · exact phandleAt_updateInfoAt_of_ne hpos s.tree
  have hstored := storeCell_getElem? hi m.offset v
  have hplaced : HasAt (overwrite val m.offset (toBytes 4 v)) m.offset (toBytes 4 v) := hasAt_overwrite (by omega)
  refine ⟨h.update (f := storeCell k m.offset v) hinfo (fun _ => rfl) (kept_storeCell fun q hq => ?_)
    (fun hpos => ?_) (.inl rfl) h.next h.taken failed, ⟨_, (propAt_updateInfoAt_self hinfo).trans hstored, hplaced⟩,
    hphandle, ?_⟩
  · obtain rfl := Option.some.inj (hi.symm.trans hq)
    exact ⟨hfits, m, href.marker, href.type, rfl⟩
  · exact borne_storeCell (h.borne pos hpos i hinfo) hi ⟨m, href.marker, href.type⟩ hfits
  · rintro pos' k' m' p' v' href' hother ⟨q, hq, hplace⟩
    dsimp only [HasCell]
    by_cases hpos : pos' = pos
    · subst hpos
      rw [propAt_updateInfoAt_self hinfo]
      rw [Dtc.propAt, hinfo] at hq
      by_cases hk : k' = k
      · subst hk
        obtain rfl := Option.some.inj (hi.symm.trans hq)
        obtain rfl := Option.some.inj (href.found.symm.trans href'.found)
        have hapart := hmarked.apart m' href'.marker m href.marker href'.type href.type (hother rfl rfl)
        exact ⟨_, hstored, hplace.overwrite (by rw [length_toBytes, length_toBytes]; exact hapart)⟩
      · exact ⟨q, (storeCell_getElem?_of_ne (Ne.symm hk)).trans hq, hplace⟩
    · exact ⟨q, by rw [propAt_updateInfoAt_of_ne hpos, hq], hplace⟩

theorem getNodePhandle_spec (halive : t₀.deleted = false) (hsize : (livePositions t₀).length < 2 ^ 32 - 2)
    (hformat : o.legacy = true ∨ o.epapr = true) (h : Invariant t₀ s) (htarget : target ∈ livePositions t₀) :
    ∃ s', getNodePhandle o s target = .ok (phandleAt target s'.tree, s') ∧ Invariant t₀ s' ∧
      phandleAt target s'.tree ≠ 0 ∧ s'.failed = s.failed ∧
      (∀ pos, phandleAt pos s.tree ≠ 0 → phandleAt pos s'.tree = phandleAt pos s.tree) ∧
      ∀ pos k p, Dtc.propAt pos k s.tree = some p → Dtc.propAt pos k s'.tree = some p := by
  obtain ⟨i, hinfo⟩ := exists_infoAt (h.live ▸ htarget)
  have hat := phandleAt_eq hinfo
  rw [getNodePhandle, hinfo]
  dsimp only
  by_cases hset : i.phandle ≠ 0 ∧ i.phandle ≠ 0xFFFFFFFF#32
  · rw [if_pos hset]
    exact ⟨s, by rw [hat]; rfl, h, hat ▸ hset.1, rfl, fun _ _ => rfl, fun _ _ _ => id⟩
  have hzero : i.phandle = 0 := by
    have hvalid := h.distinct.valid target (h.live ▸ htarget)
    rw [hat] at hvalid
    by_contra hne
    exact hset ⟨hne, hvalid⟩
  have hlive : s.tree.deleted = false := by rw [← deleted_skeleton, h.skeleton, deleted_skeleton, halive]
  have hfuel : (livePositions s.tree).length + 2 ≤ s.nextPhandle.toNat + ((livePositions s.tree).length + 1) := by
    have hnext := h.next
    omega
  obtain ⟨phandle, hfree, hpos, hvalid, hfresh, htaken⟩ :=
    freePhandle_spec hlive (h.live ▸ hsize) h.next h.taken hfuel
  have hne : phandle ≠ 0 := fun heq => by simp [heq] at hpos
  rw [if_neg hset, hfree]
  obtain ⟨extra, hextra, -⟩ := setPhandle_spec o phandle i
  have hphandle : (setPhandle o phandle i).phandle = phandle := by rw [hextra]
  have hself : phandleAt target (updateInfoAt target (setPhandle o phandle) s.tree) = phandle :=
    (phandleAt_updateInfoAt_self hinfo).trans hphandle
  refine ⟨⟨updateInfoAt target (setPhandle o phandle) s.tree, phandle, s.failed⟩, by rw [hself]; rfl, ?_,
    fun heq => hne (hself.symm.trans heq), rfl, fun pos hpos => ?_, fun pos k p hp => ?_⟩
  · have hfresh' : ∀ pos ∈ livePositions s.tree, phandleAt pos s.tree ≠ (setPhandle o phandle i).phandle :=
      fun pos hpos => by
        rw [hphandle]
        exact hfresh pos hpos
    refine h.update hinfo (fun i => ?_) (kept_setPhandle hzero o hne)
      (fun _ => borne_setPhandle (h.borne target htarget i hinfo) hzero hne hformat)
      (.inr ⟨hzero, by rwa [hphandle], hfresh'⟩) hpos htaken s.failed
    obtain ⟨extra, hextra, -⟩ := setPhandle_spec o phandle i
    rw [hextra]
    rfl
  · refine phandleAt_updateInfoAt_of_ne (fun heq => hpos ?_) s.tree
    rw [heq, hat, hzero]
  · dsimp only
    by_cases heq : pos = target
    · subst heq
      rw [Dtc.propAt, hinfo] at hp
      rw [propAt_updateInfoAt_self hinfo, hextra]
      exact (List.getElem?_append_left (List.getElem?_eq_some_iff.mp hp).1).trans hp
    · rw [propAt_updateInfoAt_of_ne heq, hp]

theorem Fixed.later (h : Fixed o t₀ pos k m s) (hfailed : s.failed = true → s'.failed = true)
    (hphandles : ∀ pos, phandleAt pos s.tree ≠ 0 → phandleAt pos s'.tree = phandleAt pos s.tree)
    (hcells : ∀ v, HasCell s.tree pos k m.offset v → HasCell s'.tree pos k m.offset v) :
    Fixed o t₀ pos k m s' := by
  rw [Fixed] at h ⊢
  cases href : getNodeByRef t₀ m.ref with
  | some target =>
    rw [href] at h
    have hsame := hphandles target h.1
    exact ⟨hsame ▸ h.1, hsame ▸ hcells _ h.2⟩
  | none =>
    rw [href] at h
    dsimp only at h ⊢
    split_ifs at h ⊢
    · exact hcells _ h
    · exact hfailed h

theorem mem_livePositions_of_getNodeByLabel {label : CString} (h : getNodeByLabel label t = some pos) :
    pos ∈ livePositions t := by
  induction t generalizing pos with
  | mk info children ih =>
    rw [getNodeByLabel] at h
    rw [livePositions, List.mem_cons]
    split at h
    · exact .inl (Option.some.inj h).symm
    · obtain ⟨j, c, pos', rfl, hc, halive, hlabel⟩ := childByLabel_eq_some h
      exact .inr (mem_livePositionsBelow.mpr ⟨j, c, pos', rfl, hc, halive, ih c (List.mem_of_getElem? hc) hlabel⟩)

theorem mem_livePositions_of_getNodeByRef {ref : CString} (h : getNodeByRef t ref = some pos) :
    pos ∈ livePositions t := by
  rw [getNodeByRef] at h
  split at h
  · obtain rfl := Option.some.inj h
    exact mem_livePositions_of_reaches (.here t)
  · split at h
    · obtain ⟨p, t', hreaches, -⟩ := getNodeByPath_eq_some h
      exact mem_livePositions_of_reaches hreaches
    · exact mem_livePositions_of_getNodeByLabel h

/-- What the second check starts from. -/
structure Ready (o : CheckOptions) (t₀ : Node) : Prop where
  alive : t₀.deleted = false
  size : (livePositions t₀).length < 2 ^ 32 - 2
  format : o.legacy = true ∨ o.epapr = true
  marked : t₀.Marked

theorem Later.refl (o : CheckOptions) (t₀ : Node) (s : CheckState) : Later o t₀ s s :=
  ⟨fun _ _ _ _ _ h => h, fun _ _ p hp => ⟨p, hp⟩⟩

theorem Later.trans {s₁ s₂ s₃ : CheckState} (h : Later o t₀ s₁ s₂) (h' : Later o t₀ s₂ s₃) : Later o t₀ s₁ s₃ where
  fixed pos k m p href hfixed := h'.fixed pos k m p href (h.fixed pos k m p href hfixed)
  props pos k p hp := by
    obtain ⟨p', hp'⟩ := h.props pos k p hp
    exact h'.props pos k p' hp'

/-- A store that fixes its cell leaves what has been fixed. -/
theorem Invariant.later (h : Invariant t₀ s) (href : IsReference t₀ pos k m p) (hmarked : p.val.Marked) {v : ℕ}
    (hs' : s' = ⟨updateInfoAt pos (storeCell k m.offset v) s.tree, s.nextPhandle, s.failed⟩)
    (hfixed : Fixed o t₀ pos k m s') : Later o t₀ s s' := by
  obtain ⟨-, -, hphandles, hcells⟩ := h.store href hmarked v s.failed hs'
  refine ⟨fun pos' k' m' p' href' hdone => ?_, fun pos' k' q hq => hs' ▸ propAt_storeCell hq⟩
  by_cases hsame : pos' = pos ∧ k' = k ∧ m' = m
  · obtain ⟨rfl, rfl, rfl⟩ := hsame
    exact hfixed
  · exact hdone.later (fun hfailed => by rw [hs', hfailed]) (fun pos _ => hphandles pos) fun v' =>
      hcells pos' k' m' p' v' href' fun hpos hk hm => hsame ⟨hpos, hk, hm⟩

/-- A reference that is fixed up has what it should, and the references fixed before keep it. -/
theorem fixupMarker_spec (hready : Ready o t₀) (h : Invariant t₀ s) (href : IsReference t₀ pos k m p) :
    ∃ s', fixupMarker o pos k s m = .ok s' ∧ Invariant t₀ s' ∧ Later o t₀ s s' ∧ Fixed o t₀ pos k m s' := by
  have hmarked := hready.marked pos href.live k p href.found
  obtain ⟨val, hval, hlen, -⟩ := h.propAt href.found
  have hbound := hmarked.bound m href.marker href.type
  have hresolve := getNodeByRef_of_skeleton h.skeleton m.ref
  have hcell : ¬val.length < m.offset + 4 := by omega
  rw [fixupMarker, if_neg (not_not.mpr href.type), hval]
  dsimp only
  rw [if_neg hcell, hresolve]
  cases hnode : getNodeByRef t₀ m.ref with
  | none =>
    dsimp only
    cases hplugin : o.plugin with
    | true =>
      rw [if_pos rfl]
      obtain ⟨s', hs'⟩ : ∃ s' : CheckState,
        s' = ⟨updateInfoAt pos (storeCell k m.offset (2 ^ 32 - 1)) s.tree, s.nextPhandle, s.failed⟩ := ⟨_, rfl⟩
      obtain ⟨hinv, hhas, -, -⟩ := h.store href hmarked (2 ^ 32 - 1) s.failed hs'
      have hfixed : Fixed o t₀ pos k m s' := by
        rw [Fixed, hnode]
        dsimp only
        rw [if_pos hplugin]
        exact hhas
      exact ⟨s', hs' ▸ rfl, hinv, h.later href hmarked hs' hfixed, hfixed⟩
    | false =>
      rw [if_neg Bool.false_ne_true]
      refine ⟨{ s with failed := true }, rfl, ⟨h.skeleton, h.kept, h.distinct, h.taken, h.next, h.borne⟩,
        ⟨fun pos' k' m' p' _ hdone => hdone.later (fun _ => rfl) (fun _ _ => rfl) fun _ => id,
          fun _ _ q hq => ⟨q, hq⟩⟩, ?_⟩
      rw [Fixed, hnode]
      dsimp only
      rw [hplugin, if_neg Bool.false_ne_true]
  | some target =>
    have htarget : target ∈ livePositions t₀ := mem_livePositions_of_getNodeByRef hnode
    obtain ⟨s₁, hget, h₁, hne, hfailed, hphandles₁, hprops⟩ :=
      getNodePhandle_spec hready.alive hready.size hready.format h htarget
    have hcells₁ : ∀ pos k off v, HasCell s.tree pos k off v → HasCell s₁.tree pos k off v :=
      fun pos k off v ⟨q, hq, hplace⟩ => ⟨q, hprops pos k q hq, hplace⟩
    have hlater₁ : Later o t₀ s s₁ := ⟨fun pos' k' m' p' _ hdone =>
      hdone.later (fun hfail => hfailed.trans hfail) hphandles₁ fun v => hcells₁ pos' k' m'.offset v,
      fun pos' k' q hq => ⟨q, hprops pos' k' q hq⟩⟩
    obtain ⟨s', hs'⟩ : ∃ s' : CheckState, s' = ⟨updateInfoAt pos
      (storeCell k m.offset (phandleAt target s₁.tree).toNat) s₁.tree, s₁.nextPhandle, s₁.failed⟩ := ⟨_, rfl⟩
    obtain ⟨hinv, hhas, hphandles, -⟩ := h₁.store href hmarked (phandleAt target s₁.tree).toNat s₁.failed hs'
    have hfixed : Fixed o t₀ pos k m s' := by
      rw [Fixed, hnode]
      dsimp only
      rw [hphandles target]
      exact ⟨hne, hhas⟩
    dsimp only
    rw [hget]
    exact ⟨s', hs' ▸ rfl, hinv, hlater₁.trans (h₁.later href hmarked hs' hfixed), hfixed⟩

theorem fixupProperty_spec (hready : Ready o t₀) (h : Invariant t₀ s) (hpos : pos ∈ livePositions t₀)
    (hk : ∃ q, Dtc.propAt pos k s.tree = some q) :
    ∃ s', fixupProperty o pos s k = .ok s' ∧ Invariant t₀ s' ∧ Later o t₀ s s' ∧
      ∀ m p, IsReference t₀ pos k m p → Fixed o t₀ pos k m s' := by
  obtain ⟨q, hq⟩ := hk
  obtain ⟨i₀, hi₀⟩ := exists_infoAt hpos
  obtain ⟨i, hi, hkept⟩ := h.kept pos i₀ hi₀
  have hqk : i.proplist[k]? = some q := by rwa [Dtc.propAt, hi] at hq
  rw [fixupProperty, hq]
  dsimp only
  cases hold : i₀.proplist[k]? with
  | none =>
    have hmarkers := hkept.markers hqk (List.getElem?_eq_none_iff.mp hold)
    rw [hmarkers]
    refine ⟨s, by split <;> rfl, h, Later.refl o t₀ s, fun m p href => ?_⟩
    have hfound := href.found
    rw [Dtc.propAt, hi₀] at hfound
    cases hold.symm.trans hfound
  | some p₀ =>
    have hfound : Dtc.propAt pos k t₀ = some p₀ := by
      rw [Dtc.propAt, hi₀]
      exact hold
    obtain ⟨val, hval, -⟩ := hkept.props k p₀ hold
    obtain rfl := Option.some.inj (hqk.symm.trans hval)
    dsimp only
    cases hdeleted : p₀.deleted with
    | true =>
      refine ⟨s, rfl, h, Later.refl o t₀ s, fun m p href => ?_⟩
      have halive := href.alive
      rw [Option.some.inj (href.found.symm.trans hfound), hdeleted] at halive
      cases halive
    | false =>
      rw [if_neg Bool.false_ne_true]
      obtain ⟨s', hrun, hs', hlater, hall⟩ := foldlM_all (I := Invariant t₀) (R := Later o t₀)
        (D := fun m s' => m.type = .refPhandle → Fixed o t₀ pos k m s') (l := p₀.val.markers)
        (Later.refl o t₀) (fun _ _ _ => Later.trans)
        (fun m hm s s' hlater hdone htype =>
          hlater.fixed pos k m p₀ ⟨hpos, hfound, hdeleted, hm, htype⟩ (hdone htype))
        (fun m hm s h => by
          by_cases htype : m.type = .refPhandle
          · obtain ⟨s', hrun, hs', hlater, hfixed⟩ := fixupMarker_spec hready h
              ⟨hpos, hfound, hdeleted, hm, htype⟩
            exact ⟨s', hrun, hs', hlater, fun _ => hfixed⟩
          · exact ⟨s, by rw [fixupMarker, if_pos htype]; rfl, h, Later.refl o t₀ s, fun heq => absurd heq htype⟩) s h
      refine ⟨s', hrun, hs', hlater, fun m p href => hall m ?_ href.type⟩
      obtain rfl := Option.some.inj (href.found.symm.trans hfound)
      exact href.marker

theorem fixupPhandleReferences_spec (hready : Ready o t₀) (h : Invariant t₀ s) (hpos : pos ∈ livePositions t₀) :
    ∃ s', fixupPhandleReferences o s pos = .ok s' ∧ Invariant t₀ s' ∧ Later o t₀ s s' ∧
      ∀ k m p, IsReference t₀ pos k m p → Fixed o t₀ pos k m s' := by
  obtain ⟨i₀, hi₀⟩ := exists_infoAt hpos
  obtain ⟨i, hi, hkept⟩ := h.kept pos i₀ hi₀
  rw [fixupPhandleReferences, hi]
  dsimp only
  -- a property that is there when the loop starts is there in every iteration
  obtain ⟨s', hrun, ⟨hs', -⟩, hlater, hall⟩ := foldlM_all
    (I := fun s' => Invariant t₀ s' ∧ ∀ k ∈ List.range i.proplist.length, ∃ q, Dtc.propAt pos k s'.tree = some q)
    (R := Later o t₀) (D := fun k s' => ∀ m p, IsReference t₀ pos k m p → Fixed o t₀ pos k m s')
    (f := fixupProperty o pos) (Later.refl o t₀) (fun _ _ _ => Later.trans)
    (fun k _ s s' hlater hdone m p href => hlater.fixed pos k m p href (hdone m p href))
    (fun k hk s hs => by
      obtain ⟨s', hrun, hs', hlater, hfixed⟩ := fixupProperty_spec hready hs.1 hpos (hs.2 k hk)
      refine ⟨s', hrun, ⟨hs', fun k' hk' => ?_⟩, hlater, hfixed⟩
      obtain ⟨q, hq⟩ := hs.2 k' hk'
      exact hlater.props pos k' q hq) s
    ⟨h, fun k hk => ⟨_, by rw [Dtc.propAt, hi]; exact List.getElem?_eq_getElem (List.mem_range.mp hk)⟩⟩
  refine ⟨s', hrun, hs', hlater, fun k m p href => hall k ?_ m p href⟩
  obtain ⟨val, hval, -⟩ := h.propAt href.found
  rw [Dtc.propAt, hi] at hval
  exact List.mem_range.mpr (List.getElem?_eq_some_iff.mp hval).1

/-- The second check fixes all references. -/
theorem fixup_spec (hready : Ready o t₀) (h : Invariant t₀ s) :
    ∃ s', checkNodesProps (fixupPhandleReferences o) s = .ok s' ∧ Invariant t₀ s' ∧
      ∀ pos k m p, IsReference t₀ pos k m p → Fixed o t₀ pos k m s' := by
  obtain ⟨s', hrun, hs', -, hall⟩ := foldlM_all (I := Invariant t₀) (R := Later o t₀)
    (D := fun pos s' => ∀ k m p, IsReference t₀ pos k m p → Fixed o t₀ pos k m s')
    (l := livePositions t₀) (f := fixupPhandleReferences o) (Later.refl o t₀) (fun _ _ _ => Later.trans)
    (fun pos _ s s' hlater hdone k m p href => hlater.fixed pos k m p href (hdone k m p href))
    (fun pos hpos s hs => fixupPhandleReferences_spec hready hs hpos) s h
  refine ⟨s', ?_, hs', fun pos k m p href => hall pos href.live k m p href⟩
  rw [checkNodesProps, h.live]
  exact hrun

end Invariants

end PynqPrio.Dtc
