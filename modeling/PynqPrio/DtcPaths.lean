import PynqPrio.DtcSource

/-!
# References by path

`get_node_by_path` compares a name inside a path with the beginning of the name of a node. It goes
into the first child that fits and never comes back, so a longer name in front hides a node.
-/
namespace PynqPrio.Dtc
open Formats

section Paths

/-- A path without the slash in front. -/
def pathText : CString → List CString → List Byte
  | name, [] => name.chars
  | name, name' :: p => name.chars ++ 0x2F#8 :: pathText name' p

/-- In front of no node on the way, but the last, is there one whose name goes on where its name ends. -/
def Clear : Node → List ℕ → Prop
  | t, i :: j :: pos => ∃ c, t.children[i]? = some c ∧
      (∀ b ∈ t.children.take i, b.deleted = false → ¬c.name.chars <+: b.name.chars) ∧ Clear c (j :: pos)
  | _, _ => True

/-- A name as nodes have it. -/
def Plain (name : CString) : Prop := name.chars ≠ [] ∧ 0x2F#8 ∉ name.chars

variable {t t' b c : Node} {cs : List Node} {i n : ℕ} {pos : List ℕ} {name ref : CString} {p : List CString}
  {rest : List Byte}

theorem pathText_spec (h : Plain name) (p : List CString) : pathText name p ≠ [] ∧
    (pathText name p).dropWhile (· = 0x2F#8) = pathText name p := by
  obtain ⟨hne, hslash⟩ := h
  obtain ⟨a, as, ha⟩ := List.exists_cons_of_ne_nil hne
  have hhead : a ≠ 0x2F#8 := fun heq => hslash (by rw [ha, heq]; exact List.mem_cons_self)
  have htext : ∃ more, pathText name p = a :: more := by
    cases p with
    | nil => exact ⟨as, ha⟩
    | cons name' p => exact ⟨_, by rw [pathText, ha, List.cons_append]⟩
  obtain ⟨more, hmore⟩ := htext
  rw [hmore]
  exact ⟨List.cons_ne_nil a more, List.dropWhile_cons_of_neg (by simpa using hhead)⟩

theorem dropWhile_name (h : Plain name) (rest : List Byte) :
    (name.chars ++ 0x2F#8 :: rest).dropWhile (· ≠ 0x2F#8) = 0x2F#8 :: rest ∧
      (name.chars ++ 0x2F#8 :: rest).takeWhile (· ≠ 0x2F#8) = name.chars := by
  have hall : ∀ a ∈ name.chars, decide (a ≠ 0x2F#8) = true := fun a ha =>
    decide_eq_true fun heq => h.2 (heq ▸ ha)
  rw [List.dropWhile_append_of_pos hall, List.takeWhile_append_of_pos hall]
  simp

theorem childByPath_last (hplain : Plain name) (hnames : (cs.map Node.name).Nodup) (hc : cs[i]? = some c)
    (halive : c.deleted = false) (hname : c.name = name) (n : ℕ) :
    childByPath cs n name.chars = some [n + i] := by
  have hend : name.chars.dropWhile (· ≠ 0x2F#8) = [] :=
    List.dropWhile_eq_nil_iff.mpr fun a ha => decide_eq_true fun heq => hplain.2 (heq ▸ ha)
  induction cs generalizing i n with
  | nil => cases hc
  | cons b cs ih =>
    rw [List.map_cons, List.nodup_cons] at hnames
    rw [childByPath, hend]
    dsimp only
    cases i with
    | zero =>
      obtain rfl := Option.some.inj hc
      rw [if_neg (Bool.eq_false_iff.mp halive), if_pos (congrArg CString.chars hname)]
      rfl
    | succ i =>
      have hother : b.name.chars ≠ name.chars := fun heq =>
        hnames.1 (CString.ext heq ▸ hname ▸ List.mem_map_of_mem (List.mem_of_getElem? hc))
      rw [if_neg hother, ite_self, ih hnames.2 hc (n + 1), Nat.add_assoc, Nat.add_comm 1 i]

/-- Where nothing hides it, the search goes on in the node. -/
theorem childByPath_of_clear (hplain : Plain name) (hc : cs[i]? = some c) (halive : c.deleted = false)
    (hname : c.name = name) (hclear : ∀ b ∈ cs.take i, b.deleted = false → ¬name.chars <+: b.name.chars) (n : ℕ) :
    childByPath cs n (name.chars ++ 0x2F#8 :: rest) = (getNodeByPath c rest).map ((n + i) :: ·) := by
  obtain ⟨hdrop, htake⟩ := dropWhile_name hplain rest
  induction cs generalizing i n with
  | nil => cases hc
  | cons b cs ih =>
    rw [childByPath, hdrop]
    dsimp only
    rw [htake]
    cases i with
    | zero =>
      obtain rfl := Option.some.inj hc
      have hself : name.chars.isPrefixOf b.name.chars = true := by simp [hname]
      rw [if_neg (Bool.eq_false_iff.mp halive), if_pos hself]
      rfl
    | succ i =>
      rw [List.take_succ_cons, List.forall_mem_cons] at hclear
      have hrest := ih hc hclear.2 (n + 1)
      rw [Nat.add_assoc, Nat.add_comm 1 i] at hrest
      cases hdel : b.deleted with
      | true => rw [if_pos rfl, hrest]
      | false =>
        have hdiffer : ¬name.chars.isPrefixOf b.name.chars = true :=
          fun h => hclear.1 hdel (List.isPrefixOf_iff_prefix.mp h)
        rw [if_neg Bool.false_ne_true, if_neg hdiffer, hrest]

/-- Where a longer name stands in front, the search goes on there. -/
theorem childByPath_of_hidden (hplain : Plain name)
    (hb : ∃ b ∈ cs.take i, b.deleted = false ∧ name.chars <+: b.name.chars) (rest : List Byte) (n : ℕ) :
    ∃ j < n + i, ∃ r : Option (List ℕ),
      childByPath cs n (name.chars ++ 0x2F#8 :: rest) = r.map (j :: ·) := by
  obtain ⟨hdrop, htake⟩ := dropWhile_name hplain rest
  induction cs generalizing i n with
  | nil =>
    obtain ⟨b, hb, -⟩ := hb
    rw [List.take_nil] at hb
    exact absurd hb List.not_mem_nil
  | cons b cs ih =>
    cases i with
    | zero =>
      obtain ⟨b, hb, -⟩ := hb
      exact absurd hb List.not_mem_nil
    | succ i =>
      rw [childByPath, hdrop]
      dsimp only
      rw [htake]
      by_cases hhere : b.deleted = false ∧ name.chars <+: b.name.chars
      · rw [if_neg (Bool.eq_false_iff.mp hhere.1), if_pos (List.isPrefixOf_iff_prefix.mpr hhere.2)]
        exact ⟨n, by omega, _, rfl⟩
      · obtain ⟨b', hb', hhides⟩ := hb
        rw [List.take_succ_cons] at hb'
        obtain rfl | hb' := List.mem_cons.mp hb'
        · exact absurd hhides hhere
        · obtain ⟨j, hj, r, hr⟩ := ih ⟨b', hb', hhides⟩ (n + 1)
          refine ⟨j, by omega, r, ?_⟩
          rw [← hr]
          cases hdel : b.deleted with
          | true => rfl
          | false =>
            have hdiffer : ¬name.chars.isPrefixOf b.name.chars = true :=
              fun h => hhere ⟨hdel, List.isPrefixOf_iff_prefix.mp h⟩
            rw [if_neg Bool.false_ne_true, if_neg hdiffer]

theorem getNodeByPath_pathText (h : Reaches t pos (name :: p) t') (hsound : Sound t)
    (hplain : ∀ name' ∈ name :: p, Plain name') : getNodeByPath t (pathText name p) = some pos ↔ Clear t pos := by
  induction p generalizing t pos name with
  | nil =>
    cases h with
    | @child info children i c _ pos _ hc halive h =>
      cases h with
      | here =>
        have hname := hplain _ List.mem_cons_self
        obtain ⟨hne, hdrop⟩ := pathText_spec hname []
        have hlast := childByPath_last hname hsound.orderly.names hc halive rfl 0
        rw [Nat.zero_add] at hlast
        rw [getNodeByPath, if_neg hne, hdrop, pathText, hlast]
        exact ⟨fun _ => trivial, fun _ => rfl⟩
  | cons name' p ih =>
    cases h with
    | @child info children i c _ pos _ hc halive h =>
      have hname := hplain _ List.mem_cons_self
      obtain ⟨hne, hdrop⟩ := pathText_spec hname (name' :: p)
      have hbelow := ih h (hsound.of_mem (List.mem_of_getElem? hc))
        fun x hx => hplain x (List.mem_cons_of_mem _ hx)
      obtain ⟨j, pos', rfl⟩ : ∃ j pos', pos = j :: pos' := by
        cases h
        exact ⟨_, _, rfl⟩
      rw [getNodeByPath, if_neg hne, hdrop, pathText]
      by_cases hclear : ∀ b ∈ children.take i, b.deleted = false → ¬c.name.chars <+: b.name.chars
      · rw [childByPath_of_clear hname hc halive rfl hclear 0, Nat.zero_add]
        constructor
        · intro hfound
          obtain ⟨pos'', hpos'', heq⟩ := Option.map_eq_some_iff.mp hfound
          obtain rfl := (List.cons.inj heq).2
          exact ⟨c, hc, hclear, hbelow.mp hpos''⟩
        · rintro ⟨c', hc', -, hrest⟩
          obtain rfl := Option.some.inj (hc.symm.trans hc')
          rw [hbelow.mpr hrest]
          rfl
      · have hhides : ∃ b ∈ children.take i, b.deleted = false ∧ c.name.chars <+: b.name.chars := by
          simpa only [not_forall, not_not, exists_prop] using hclear
        obtain ⟨k, hk, r, hr⟩ := childByPath_of_hidden hname hhides (pathText name' p) 0
        rw [hr]
        constructor
        · intro hfound
          obtain ⟨pos'', -, heq⟩ := Option.map_eq_some_iff.mp hfound
          have hindex := (List.cons.inj heq).1
          omega
        · rintro ⟨c', hc', hcleared, -⟩
          obtain rfl := Option.some.inj (hc.symm.trans hc')
          exact absurd hcleared hclear

/-- A node is found by its path exactly when no longer name stands in front of a node on the way. -/
theorem path_resolved_iff (h : Reaches t pos (name :: p) t') (hsound : Sound t)
    (hplain : ∀ name' ∈ name :: p, Plain name') (href : ref.chars = 0x2F#8 :: pathText name p) :
    getNodeByRef t ref = some pos ↔ Clear t pos := by
  obtain ⟨hne, hdrop⟩ := pathText_spec (hplain name List.mem_cons_self) p
  have hroot : ref.chars ≠ [0x2F#8] := fun heq => hne (List.cons.inj (href.symm.trans heq)).2
  rw [← getNodeByPath_pathText h hsound hplain, getNodeByRef, if_neg hroot, href, List.head?_cons, if_pos rfl]
  cases t with
  | mk info children =>
    rw [getNodeByPath, getNodeByPath, if_neg hne, if_neg (List.cons_ne_nil _ _)]
    exact Iff.rfl

/-- `/ { jk { }; j { m { }; }; };` -/
def hidingTree : Node :=
  .mk {} [.mk { name := ⟨[0x6A#8, 0x6B#8], by decide⟩ } [],
    .mk { name := ⟨[0x6A#8], by decide⟩ } [.mk { name := ⟨[0x6D#8], by decide⟩ } []]]

/-- `&{/j/m}` refers to nothing there. -/
theorem path_resolved_iff_hidden :
    getNodeByRef hidingTree ⟨[0x2F#8, 0x6A#8, 0x2F#8, 0x6D#8], by decide⟩ ≠ some [1, 0] := by
  have hsound : ∀ name children, (children.map Node.name).Nodup → (∀ c ∈ children, Sound c) →
      Sound (.mk { name } children) := fun _ _ hnames hchildren =>
    .mk ⟨List.nodup_nil, hnames, fun h => absurd h Bool.false_ne_true, fun h => absurd h Bool.false_ne_true,
      fun h => absurd h Bool.false_ne_true⟩ hchildren
  have hleaf : ∀ name, Sound (.mk { name } []) := fun name =>
    hsound name [] List.nodup_nil fun c hc => absurd hc List.not_mem_nil
  have htree : Sound hidingTree := by
    refine hsound .empty _ (by decide) fun c hc => ?_
    obtain rfl | hc := List.mem_cons.mp hc
    · exact hleaf _
    · rw [List.mem_singleton.mp hc]
      refine hsound _ _ (by decide) fun c hc => ?_
      rw [List.mem_singleton.mp hc]
      exact hleaf _
  let last : Node := .mk { name := ⟨[0x6D#8], by decide⟩ } []
  let inner : Node := .mk { name := ⟨[0x6A#8], by decide⟩ } [last]
  have hinner : Reaches inner [0] [last.name] last := .child (c := last) rfl rfl (.here last)
  have hreaches : Reaches hidingTree [1, 0] [inner.name, last.name] last := .child (c := inner) rfl rfl hinner
  have hplain : ∀ name' ∈ [inner.name, last.name], Plain name' := by
    intro name' hname'
    obtain rfl | hname' := List.mem_cons.mp hname'
    · exact ⟨List.cons_ne_nil _ _, by decide⟩
    · rw [List.mem_singleton.mp hname']
      exact ⟨List.cons_ne_nil _ _, by decide⟩
  intro hfound
  obtain ⟨c, hc, hclear, -⟩ := (path_resolved_iff hreaches htree hplain rfl).mp hfound
  obtain rfl := Option.some.inj hc
  exact hclear _ List.mem_cons_self rfl (by decide)

end Paths

end PynqPrio.Dtc
