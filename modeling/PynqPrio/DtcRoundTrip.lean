import PynqPrio.DtcUnflatten

/-!
# What is written is read back

Each tag that `flatten_tree` writes is what `unflatten_tree` reads at its place, and by induction
on the tree a blob of any version gives the tree that it was made from, without the deleted
parts and the labels.
-/
namespace PynqPrio.Dtc
open Formats

section Growth

instance : Preorder Bufs where
  le s t := s.dtbuf <+: t.dtbuf ∧ s.strbuf <+: t.strbuf
  le_refl _ := ⟨List.prefix_rfl, List.prefix_rfl⟩
  le_trans _ _ _ h h' := ⟨h.1.trans h'.1, h.2.trans h'.2⟩

variable {s : Bufs}

theorem Bufs.le_cell (s : Bufs) (v : ℕ) : s ≤ s.cell v := ⟨List.prefix_append _ _, List.prefix_rfl⟩
theorem Bufs.le_data (s : Bufs) (d : List Byte) : s ≤ s.data d :=
  ⟨List.prefix_append _ _, List.prefix_rfl⟩
theorem Bufs.le_align (s : Bufs) (a : ℕ) : s ≤ s.align a := ⟨List.prefix_append _ _, List.prefix_rfl⟩

@[simp] theorem Bufs.length_cell (s : Bufs) (v : ℕ) : (s.cell v).dtbuf.length = s.dtbuf.length + 4 := by
  simp [Bufs.cell, dataAppendCell]

@[simp] theorem Bufs.length_data (s : Bufs) (d : List Byte) :
    (s.data d).dtbuf.length = s.dtbuf.length + d.length := by
  simp [Bufs.data, dataAppendData]

@[simp] theorem Bufs.length_align (s : Bufs) {a : ℕ} (ha : 0 < a) :
    (s.align a).dtbuf.length = Formats.align s.dtbuf.length a := by
  have hle : s.dtbuf.length ≤ Formats.align s.dtbuf.length a := Formats.le_align ha _
  simp only [Bufs.align, dataAppendAlign, dataAppendZeroes, List.length_append, List.length_replicate]
  omega

end Growth

section Strings

variable {str : CString} {d : List Byte} {i j : ℕ}

theorem findString_hasAt (h : findString str d i = some j) : ∃ k, j = i + k ∧ HasAt d k str.bytes := by
  induction d generalizing i with
  | nil => cases h
  | cons b d ih =>
    rw [findString] at h
    split at h
    · next hpre =>
      obtain rfl := Option.some.inj h
      obtain ⟨post, hpost⟩ := List.isPrefixOf_iff_prefix.mp hpre
      exact ⟨0, rfl, [], post, rfl, hpost.symm⟩
    · obtain ⟨k, rfl, pre, post, rfl, rfl⟩ := ih h
      exact ⟨pre.length + 1, by omega, b :: pre, post, rfl, rfl⟩

/-- The table is continued, and the string stands at the place in it. -/
theorem stringtableInsert_spec (d : List Byte) (str : CString) :
    d <+: (stringtableInsert d str).2 ∧
      HasAt (stringtableInsert d str).2 (stringtableInsert d str).1 str.bytes := by
  rw [stringtableInsert]
  split
  · next hfind =>
    obtain ⟨k, rfl, hk⟩ := findString_hasAt hfind
    rw [Nat.zero_add]
    exact ⟨List.prefix_rfl, hk⟩
  · exact ⟨List.prefix_append _ _, d, [], rfl, by simp [dataAppendData]⟩

end Strings

section Reading

variable {blob : List Byte} {inb : Inbuf} {p : ℕ} {bs : List Byte}

theorem gives_chunk {len : ℕ} (h : HasAt blob p bs) (hlen : bs.length = len) (hlimit : p + len ≤ inb.limit) :
    Gives (flatReadChunk blob inb len) p bs (p + len) := by
  have hle := h.le
  refine .get_bind (.ite_neg (by omega) (.ite_neg (by omega) (.set_bind ?_)))
  exact gives_pure.mpr ⟨h.slice hlen, rfl⟩

theorem gives_word {v : ℕ} (hv : v < 256 ^ 4) (h : HasAt blob p (toBytes 4 v)) (hlimit : p + 4 ≤ inb.limit)
    (halign : 4 ∣ p - inb.base) : Gives (flatReadWord blob inb) p v (p + 4) := by
  have hmod : ¬(p - inb.base) % 4 ≠ 0 := not_not.mpr (Nat.mod_eq_zero_of_dvd halign)
  refine .get_bind (.ite_neg hmod ?_)
  exact (gives_chunk h (length_toBytes 4 v) hlimit).bind
    (gives_pure.mpr ⟨ofBytes_toBytes_of_lt hv, rfl⟩)

theorem gives_realign {a q : ℕ} (hq : inb.base + align (p - inb.base) a = q) (hlimit : q ≤ inb.limit) :
    Gives (flatRealign inb a) p () q :=
  .get_bind (.ite_neg (by omega) (gives_set.mpr hq))

theorem gives_cstring {limit : ℕ} {message : Message} {str : CString} (h : HasAt blob p str.bytes)
    (hlimit : p + str.bytes.length ≤ limit) {m : ℕ} :
    Gives (readCString blob p limit message) m str m := by
  rw [readCString, CString.scan_of_hasAt h hlimit]
  exact gives_pure.mpr ⟨rfl, rfl⟩

end Reading

/-- The blob holds the two buffers, each within its limits. -/
structure Holds (blob : List Byte) (dtbuf strbuf : Inbuf) (out : Bufs) : Prop where
  dt : HasAt blob dtbuf.base out.dtbuf
  dtLimit : dtbuf.base + out.dtbuf.length ≤ dtbuf.limit
  str : HasAt blob strbuf.base out.strbuf
  strLimit : strbuf.base + out.strbuf.length ≤ strbuf.limit
  dtSmall : out.dtbuf.length < 2 ^ 31
  strSmall : out.strbuf.length < 2 ^ 31

/-- Tags begin at a multiple of four. -/
def Bufs.Aligned (s : Bufs) : Prop := 4 ∣ s.dtbuf.length

/-- The place behind what has been written. -/
def Inbuf.pos (dtbuf : Inbuf) (s : Bufs) : ℕ := dtbuf.base + s.dtbuf.length

section Tags

variable {blob : List Byte} {dtbuf strbuf : Inbuf} {out s : Bufs} {vi : VersionInfo}

theorem Holds.hasAt (h : Holds blob dtbuf strbuf out) (s : Bufs) (bs : List Byte) (hout : s.data bs ≤ out) :
    HasAt blob (dtbuf.pos s) bs ∧ dtbuf.pos s + bs.length ≤ dtbuf.limit := by
  have hle := hout.1.length_le
  rw [Bufs.length_data] at hle
  constructor
  · exact (h.dt.of_prefix hout.1).right
  · have hlimit := h.dtLimit
    rw [Inbuf.pos]
    omega

theorem reads_cell (h : Holds blob dtbuf strbuf out) {v : ℕ} (hv : v < 256 ^ 4) :
    ReadsBack out dtbuf.pos Bufs.Aligned (·.cell v) (flatReadWord blob dtbuf) v := by
  constructor
  · exact fun s _ => s.le_cell v
  · intro s hs
    rw [Bufs.Aligned, Bufs.length_cell]
    exact Nat.dvd_add hs ⟨1, rfl⟩
  · intro s hs hout
    obtain ⟨hplace, hlimit⟩ := h.hasAt s (toBytes 4 v) hout
    rw [length_toBytes] at hlimit
    have hpos : dtbuf.pos (s.cell v) = dtbuf.pos s + 4 := by
      rw [Inbuf.pos, Inbuf.pos, Bufs.length_cell, Nat.add_assoc]
    rw [hpos]
    refine gives_word hv hplace hlimit ?_
    rw [Inbuf.pos, Nat.add_sub_cancel_left]
    exact hs

/-- Behind the alignment of the writer is where the reader comes to by its own. -/
theorem gives_align (h : Holds blob dtbuf strbuf out) {a : ℕ} (ha : 0 < a) (hout : s.align a ≤ out) :
    Gives (flatRealign dtbuf a) (dtbuf.pos s) () (dtbuf.pos (s.align a)) := by
  have hle := hout.1.length_le
  have hlimit := h.dtLimit
  rw [Bufs.length_align _ ha] at hle
  refine gives_realign ?_ ?_
  · rw [Inbuf.pos, Inbuf.pos, Nat.add_sub_cancel_left, Bufs.length_align _ ha]
  · rw [Inbuf.pos, Bufs.length_align _ ha]
    omega

theorem aligned_align (s : Bufs) : (s.align 4).Aligned := by
  rw [Bufs.Aligned, Bufs.length_align _ (by decide)]
  exact dvd_align _ _

theorem reads_string (h : Holds blob dtbuf strbuf out) (str : CString) :
    ReadsBack out dtbuf.pos Bufs.Aligned (fun s => (s.string str 0).align 4)
      (flatReadString blob dtbuf) str := by
  constructor
  · exact fun s _ => (s.le_data _).trans (Bufs.le_align _ 4)
  · exact fun s _ => aligned_align _
  · intro s _ hout
    obtain ⟨hplace, hlimit⟩ := h.hasAt s str.bytes ((Bufs.le_align _ 4).trans hout)
    refine .get_bind ((gives_cstring hplace hlimit).bind (.set_bind ?_))
    have hpos : dtbuf.pos s + (str.chars.length + 1) = dtbuf.pos (s.string str 0) := by
      simp [Inbuf.pos, Bufs.string, Nat.add_assoc]
    rw [hpos]
    exact (gives_align h (by decide) hout).bind (gives_pure.mpr ⟨rfl, rfl⟩)

theorem Bufs.align_of_aligned (hs : s.Aligned) : s.align 4 = s := by
  have hsame : Formats.align s.dtbuf.length 4 = s.dtbuf.length := align_of_dvd (by decide) hs
  rw [Bufs.align, dataAppendAlign, hsame, Nat.sub_self, dataAppendZeroes, List.replicate_zero,
    List.append_nil]

/-- The place of the value is a multiple of eight in the old versions, if it is a long one. -/
def Bufs.varalign (vi : VersionInfo) (len : ℕ) (s : Bufs) : Bufs :=
  if vi.ftfVaralign && decide (8 ≤ len) then s.align 8 else s

theorem Bufs.le_varalign (vi : VersionInfo) (s : Bufs) (len : ℕ) : s ≤ s.varalign vi len := by
  rw [Bufs.varalign]
  split
  · exact s.le_align 8
  · exact le_rfl

theorem Bufs.Aligned.varalign (hs : s.Aligned) (len : ℕ) : (s.varalign vi len).Aligned := by
  rw [Bufs.varalign]
  split
  · rw [Bufs.Aligned, Bufs.length_align _ (by decide)]
    exact Nat.dvd_trans ⟨2, rfl⟩ (dvd_align _ 8)
  · exact hs

theorem gives_varalign (h : Holds blob dtbuf strbuf out) {len : ℕ} (hout : s.varalign vi len ≤ out) :
    Gives (if vi.ftfVaralign && decide (8 ≤ len) then flatRealign dtbuf 8 else pure ())
      (dtbuf.pos s) () (dtbuf.pos (s.varalign vi len)) := by
  rw [Bufs.varalign] at hout ⊢
  split at hout
  · next hlong =>
    rw [if_pos hlong, if_pos hlong]
    exact gives_align h (by decide) hout
  · next hshort =>
    rw [if_neg hshort, if_neg hshort]
    exact gives_pure.mpr ⟨rfl, rfl⟩

theorem gives_data (h : Holds blob dtbuf strbuf out) (hs : s.Aligned) {val : List Byte}
    (hout : (s.data val).align 4 ≤ out) : Gives (flatReadData blob dtbuf val.length) (dtbuf.pos s) val
      (dtbuf.pos ((s.data val).align 4)) := by
  obtain ⟨hplace, hlimit⟩ := h.hasAt s val ((Bufs.le_align _ 4).trans hout)
  have hsmall : val.length < 2 ^ 31 := by
    have hle := (((Bufs.le_align _ 4).trans hout).1).length_le
    have hbound := h.dtSmall
    rw [Bufs.length_data] at hle
    omega
  rw [flatReadData]
  by_cases hempty : val.length = 0
  · obtain rfl := List.eq_nil_of_length_eq_zero hempty
    have hsame : (s.data []).align 4 = s := by
      have hdata : s.data [] = s := by
        rw [Bufs.data, dataAppendData, List.append_nil]
      rw [hdata, Bufs.align_of_aligned hs]
    rw [hsame]
    exact .ite_pos rfl (gives_pure.mpr ⟨rfl, rfl⟩)
  · refine .ite_neg hempty (.ite_neg (by omega) ((gives_chunk hplace rfl hlimit).bind ?_))
    have hpos : dtbuf.pos s + val.length = dtbuf.pos (s.data val) := by
      rw [Inbuf.pos, Inbuf.pos, Bufs.length_data, Nat.add_assoc]
    rw [hpos]
    exact (gives_align h (by decide) hout).bind (gives_pure.mpr ⟨rfl, rfl⟩)

end Tags

section Properties

variable {blob : List Byte} {dtbuf strbuf : Inbuf} {out s : Bufs} {vi : VersionInfo} {name : CString}
  {val : List Byte} {value : Bufs → Bufs}

/-- A property up to the place of its value. -/
def propHead (name : CString) (len : ℕ) (s : Bufs) : Bufs :=
  ((({ s with strbuf := (stringtableInsert s.strbuf name).2 } : Bufs).cell fdtProp).cell len).cell
    (stringtableInsert s.strbuf name).1

theorem flattenProp_eq (len : ℕ) (s : Bufs) : flattenProp vi name len value s =
    (value ((propHead name len s).varalign vi len)).align 4 := rfl

theorem le_propHead (s : Bufs) (len : ℕ) : s ≤ propHead name len s :=
  le_trans (b := ({ s with strbuf := (stringtableInsert s.strbuf name).2 } : Bufs))
    ⟨List.prefix_rfl, (stringtableInsert_spec s.strbuf name).1⟩
    (((Bufs.le_cell _ _).trans (Bufs.le_cell _ _)).trans (Bufs.le_cell _ _))

theorem aligned_propHead (hs : s.Aligned) (len : ℕ) : (propHead name len s).Aligned := by
  rw [Bufs.Aligned, propHead, Bufs.length_cell, Bufs.length_cell, Bufs.length_cell]
  exact Nat.dvd_add (Nat.dvd_add (Nat.dvd_add hs ⟨1, rfl⟩) ⟨1, rfl⟩) ⟨1, rfl⟩

theorem le_flattenProp (hvalue : ∀ s, s ≤ value s) (len : ℕ) (s : Bufs) :
    s ≤ flattenProp vi name len value s :=
  (((le_propHead s len).trans (Bufs.le_varalign vi _ len)).trans (hvalue _)).trans (Bufs.le_align _ 4)

theorem aligned_flattenProp (len : ℕ) (s : Bufs) : (flattenProp vi name len value s).Aligned :=
  aligned_align _

/-- A property takes more than the four bytes of its tag. -/
theorem length_flattenProp (hvalue : ∀ s, s ≤ value s) (len : ℕ) (s : Bufs) :
    s.dtbuf.length + 4 ≤ (flattenProp vi name len value s).dtbuf.length := by
  have hhead : (propHead name len s).dtbuf.length = s.dtbuf.length + 12 := by
    rw [propHead, Bufs.length_cell, Bufs.length_cell, Bufs.length_cell]
  have hle := (((Bufs.le_varalign vi (propHead name len s) len).trans (hvalue _)).trans
    (Bufs.le_align _ 4)).1.length_le
  rw [flattenProp_eq]
  omega

/-- The name stands where the tag says. -/
theorem gives_propName (h : Holds blob dtbuf strbuf out) {len m : ℕ} (hout : propHead name len s ≤ out) :
    (stringtableInsert s.strbuf name).1 < 2 ^ 31 ∧
      Gives (flatReadStringtable blob strbuf (stringtableInsert s.strbuf name).1) m name m := by
  obtain ⟨-, hname⟩ := stringtableInsert_spec s.strbuf name
  have hplace := (HasAt.of_prefix (hasAt_zero_self out.strbuf) hout.2).trans hname
  rw [Nat.zero_add] at hplace
  have hle := hplace.le
  have hsmall := h.strSmall
  have hlimit := h.strLimit
  rw [CString.length_bytes] at hle
  refine ⟨by omega, ?_⟩
  rw [flatReadStringtable, if_neg (by omega)]
  refine gives_cstring (h.str.trans hplace) ?_
  rw [CString.length_bytes]
  omega

/-- The tag of a property is read, and then the property. -/
theorem gives_prop (h : Holds blob dtbuf strbuf out) (hs : s.Aligned) (hvalue : ∀ s, value s = s.data val)
    (hout : flattenProp vi name val.length value s ≤ out) :
    ∃ m, Gives (flatReadWord blob dtbuf) (dtbuf.pos s) fdtProp m ∧
      Gives (flatReadProperty blob dtbuf strbuf vi.ftfVaralign) m (buildProperty name { val })
        (dtbuf.pos (flattenProp vi name val.length value s)) := by
  rw [flattenProp_eq, hvalue] at hout ⊢
  have hvaralign := (Bufs.le_data _ val).trans ((Bufs.le_align _ 4).trans hout)
  have hhead := (Bufs.le_varalign vi _ val.length).trans hvaralign
  obtain ⟨hoff, hname⟩ := gives_propName (m := dtbuf.pos (propHead name val.length s)) h hhead
  have hlen : val.length < 256 ^ 4 := by
    have hle := (((Bufs.le_align _ 4).trans hout).1).length_le
    have hbound := h.dtSmall
    rw [Bufs.length_data] at hle
    omega
  have hsecond := (Bufs.le_cell _ _).trans hhead
  have hfirst := (Bufs.le_cell _ _).trans hsecond
  have htag := (reads_cell h (v := fdtProp) (by decide)).reads
    { s with strbuf := (stringtableInsert s.strbuf name).2 } hs hfirst
  have hkeep := (reads_cell h (v := fdtProp) (by decide)).keeps
    { s with strbuf := (stringtableInsert s.strbuf name).2 } hs
  refine ⟨_, htag, ?_⟩
  refine ((reads_cell h hlen).reads _ hkeep hsecond).bind
    (((reads_cell h (by omega)).reads _ ((reads_cell h hlen).keeps _ hkeep) hhead).bind
      (hname.bind ((gives_varalign h hvaralign).bind ?_)))
  exact (gives_data h ((aligned_propHead hs _).varalign _) hout).bind (gives_pure.mpr ⟨rfl, rfl⟩)

end Properties

section Stored

/-- What the blob has of the properties of a node. -/
def storedProps (vi : VersionInfo) (info : NodeInfo) : List Property :=
  let seenNameProp := info.proplist.any fun p => !p.deleted && decide (p.name = nameString)
  visibleProps info.proplist ++ if vi.ftfNameprops && !seenNameProp then
    [buildProperty nameString { val := info.name.chars.takeWhile (· ≠ 0x40#8) ++ [0#8] }] else []

mutual
/-- The tree that the blob of a version holds: what is visible, and in the old versions the name
of each node as a property. -/
def stored (vi : VersionInfo) : Node → Node
  | .mk info children => buildNode info.name (storedProps vi info) (storedChildren vi children)
def storedChildren (vi : VersionInfo) : List Node → List Node
  | [] => []
  | c :: cs => if c.deleted then storedChildren vi cs else stored vi c :: storedChildren vi cs
end

/-- The full path of the node is one that its children are told from. -/
def PathOpen (path : CString) : Prop := path = slash ∨ path.chars.getLast? ≠ some 0x2F#8

mutual
/-- What the old versions need of the names: a path can be told from that of the parent, and the
name without its unit address is not empty, where the name is not. -/
def OldNames (pre : CString) : Node → Prop
  | .mk info children =>
    PathOpen pre ∧ (unitPosition info.name = 0 → info.name.chars = []) ∧
      OldChildren (joinPath pre info.name) children
def OldChildren (pre : CString) : List Node → Prop
  | [] => True
  | c :: cs => (c.deleted = false → OldNames pre c) ∧ OldChildren pre cs
end

end Stored

section Nodes

variable {blob : List Byte} {dtbuf strbuf : Inbuf} {out s s' : Bufs} {vi : VersionInfo} {fuel : ℕ}

/-- The fuel lasts for what is still to be read, as every tag has four bytes. -/
def Room (out s : Bufs) (fuel : ℕ) : Prop := out.dtbuf.length ≤ s.dtbuf.length + 4 * fuel

theorem Room.step (hroom : Room out s fuel) (s' : Bufs) (hgrow : s.dtbuf.length + 4 ≤ s'.dtbuf.length)
    (hout : s' ≤ out) : ∃ n, fuel = n + 1 ∧ Room out s' n := by
  have hle := hout.1.length_le
  rw [Room] at hroom
  refine ⟨fuel - 1, by omega, ?_⟩
  rw [Room]
  omega

theorem le_flattenProps (props : List Property) (s : Bufs) : s ≤ flattenProps vi props s := by
  induction props generalizing s with
  | nil => exact le_rfl
  | cons prop props ih =>
    rw [flattenProps]
    split
    · exact ih s
    · exact (le_flattenProp (fun s => s.le_data _) _ s).trans (ih _)

theorem aligned_flattenProps (props : List Property) (hs : s.Aligned) :
    (flattenProps vi props s).Aligned := by
  induction props generalizing s with
  | nil => exact hs
  | cons prop props ih =>
    rw [flattenProps]
    split
    · exact ih hs
    · exact ih (aligned_flattenProp _ s)

variable (flatname : CString) (info : NodeInfo) (children : List Node)

/-- The loop comes from in front of a property to behind it. -/
theorem continues_prop (h : Holds blob dtbuf strbuf out) (hflags : vi.ftfVaralign = vi.ftfFullpath)
    (hs : s.Aligned) {name : CString} {val : List Byte} {value : Bufs → Bufs}
    (hvalue : ∀ s, value s = s.data val) (hout : flattenProp vi name val.length value s ≤ out) :
    Continues (Room out) dtbuf.pos
      (fun n => unflattenTree.unflattenBody blob dtbuf strbuf vi.ftfFullpath n flatname) s (.mk info children)
      (flattenProp vi name val.length value s)
      (.mk (addProperty info (buildProperty name { val })) children) := by
  intro n hn
  have hgrow : ∀ s, s ≤ value s := fun s => hvalue s ▸ s.le_data val
  obtain ⟨n, rfl, hroom⟩ := hn.step _ (length_flattenProp hgrow _ s) hout
  refine ⟨n, hroom, fun b q hb => ?_⟩
  obtain ⟨m, hword, hprop⟩ := gives_prop h hs hvalue hout
  rw [hflags] at hprop
  exact hword.bind (.ite_pos rfl (hprop.bind hb))

theorem continues_props (h : Holds blob dtbuf strbuf out) (hflags : vi.ftfVaralign = vi.ftfFullpath)
    (props : List Property) (hs : s.Aligned) (hout : flattenProps vi props s ≤ out) :
    Continues (Room out) dtbuf.pos
      (fun n => unflattenTree.unflattenBody blob dtbuf strbuf vi.ftfFullpath n flatname) s (.mk info children)
      (flattenProps vi props s)
      (.mk { info with proplist := info.proplist ++ visibleProps props } children) := by
  induction props generalizing s info with
  | nil =>
    rw [flattenProps, visibleProps, List.filter_nil, List.map_nil, List.append_nil]
    exact continues_refl _ _
  | cons prop props ih =>
    rw [flattenProps] at hout ⊢
    split at hout
    · next hdel =>
      rw [if_pos hdel, visibleProps_cons, if_pos hdel]
      exact ih info hs hout
    · next hdel =>
      rw [if_neg hdel, visibleProps_cons, if_neg hdel]
      have hrest := ih (addProperty info (buildProperty prop.name { val := prop.val.val }))
        (aligned_flattenProp _ s) hout
      rw [addProperty, List.append_assoc, List.singleton_append] at hrest
      exact (continues_prop flatname info children h hflags hs (fun _ => rfl)
        ((le_flattenProps props _).trans hout)).trans hrest

/-- The name as the value of a property, with the length that the tag says. -/
theorem value_nameProp {name : CString} (hunit : unitPosition name = 0 → name.chars = []) (s : Bufs) :
    s.string name (unitPosition name) = s.data (name.chars.takeWhile (· ≠ 0x40#8) ++ [0#8]) := by
  rw [Bufs.string]
  split
  · next hzero => rw [hunit hzero, List.takeWhile_nil]
  · have htake : name.chars.take (unitPosition name) = name.chars.takeWhile (· ≠ 0x40#8) :=
      (List.prefix_iff_eq_take.mp (List.takeWhile_prefix _)).symm
    rw [htake]

theorem length_nameProp (name : CString) :
    (name.chars.takeWhile (· ≠ 0x40#8) ++ [0#8]).length = unitPosition name + 1 := by
  rw [List.length_append, unitPosition, List.length_singleton]

variable {info : NodeInfo}

/-- Either nothing is added for the name or it is one more property. -/
theorem flattenName_cases (hlen : info.basenamelen = unitPosition info.name)
    (hunit : vi.ftfNameprops = true → unitPosition info.name = 0 → info.name.chars = []) :
    (storedProps vi info = visibleProps info.proplist ∧ ∀ s, flattenName vi info s = s) ∨
      ∃ name val value, (∀ s : Bufs, value s = s.data val) ∧
        storedProps vi info = visibleProps info.proplist ++ [buildProperty name { val }] ∧
        ∀ s, flattenName vi info s = flattenProp vi name val.length value s := by
  by_cases hadd : (vi.ftfNameprops &&
      !(info.proplist.any fun p => !p.deleted && decide (p.name = nameString))) = true
  · right
    refine ⟨nameString, info.name.chars.takeWhile (· ≠ 0x40#8) ++ [0#8],
      (·.string info.name info.basenamelen), ?_, ?_, ?_⟩
    · intro s
      rw [hlen]
      exact value_nameProp (hunit (Bool.and_eq_true_iff.mp hadd).1) s
    · rw [storedProps, if_pos hadd]
    · intro s
      rw [flattenName, if_pos hadd, length_nameProp, hlen]
  · left
    constructor
    · rw [storedProps, if_neg hadd, List.append_nil]
    · intro s
      rw [flattenName, if_neg hadd]

/-- The properties of a node with the one for its name. -/
def flattenAllProps (vi : VersionInfo) (info : NodeInfo) (s : Bufs) : Bufs :=
  flattenName vi info (flattenProps vi info.proplist s)

theorem le_flattenName (info : NodeInfo) (s : Bufs) : s ≤ flattenName vi info s := by
  rw [flattenName]
  split
  · exact le_flattenProp (fun s => s.le_data _) _ s
  · exact le_rfl

theorem le_flattenAllProps (vi : VersionInfo) (info : NodeInfo) (s : Bufs) : s ≤ flattenAllProps vi info s :=
  (le_flattenProps info.proplist s).trans (le_flattenName info _)

theorem aligned_flattenAllProps (info : NodeInfo) (hs : s.Aligned) : (flattenAllProps vi info s).Aligned := by
  rw [flattenAllProps, flattenName]
  split
  · exact aligned_flattenProp _ _
  · exact aligned_flattenProps _ hs

theorem continues_allProps (info : NodeInfo) (h : Holds blob dtbuf strbuf out)
    (hflags : vi.ftfVaralign = vi.ftfFullpath)
    (hlen : info.basenamelen = unitPosition info.name)
    (hunit : vi.ftfNameprops = true → unitPosition info.name = 0 → info.name.chars = [])
    (hs : s.Aligned) (hout : flattenAllProps vi info s ≤ out) (name : CString) :
    Continues (Room out) dtbuf.pos
      (fun n => unflattenTree.unflattenBody blob dtbuf strbuf vi.ftfFullpath n flatname) s
      (buildNode name [] []) (flattenAllProps vi info s) (buildNode name (storedProps vi info) []) := by
  rw [flattenAllProps] at hout ⊢
  obtain ⟨hstored, hname⟩ | ⟨pname, val, value, hvalue, hstored, hname⟩ := flattenName_cases hlen hunit
  · rw [hname] at hout ⊢
    rw [hstored]
    exact continues_props flatname { name } [] h hflags info.proplist hs hout
  · rw [hname] at hout ⊢
    rw [hstored]
    have hprops := continues_props flatname { name } [] h hflags info.proplist hs
      ((le_flattenProp (fun s => hvalue s ▸ s.le_data val) _ _).trans hout)
    exact hprops.trans (continues_prop flatname _ [] h hflags (aligned_flattenProps _ hs) hvalue hout)

end Nodes

section Trees

variable {blob : List Byte} {dtbuf strbuf : Inbuf} {out s : Bufs} {vi : VersionInfo} {fuel : ℕ}

/-- A path is told from that of its parent. -/
theorem gives_nodename {pre : CString} (hpre : PathOpen pre) (name : CString) (p : ℕ) :
    Gives (nodenameFromPath pre (joinPath pre name)) p name p := by
  have hprefix : pre.chars.isPrefixOf (joinPath pre name).chars = true := by
    rw [List.isPrefixOf_iff_prefix, chars_joinPath, List.append_assoc]
    exact List.prefix_append _ _
  rw [nodenameFromPath, if_pos hprefix]
  obtain rfl | hlast := hpre
  · refine .ite_neg ?_ (gives_pure.mpr ⟨CString.ext rfl, rfl⟩)
    simp [joinPath, slash]
  · by_cases hslash : pre = slash
    · subst hslash
      exact absurd rfl hlast
    · have hchars : (joinPath pre name).chars = pre.chars ++ [0x2F#8] ++ name.chars := by
        rw [chars_joinPath, if_neg hlast]
      simp only [if_neg hslash, hchars]
      refine .ite_neg ?_ (gives_pure.mpr ⟨CString.ext ?_, rfl⟩)
      · simp
      · exact List.drop_left' (by simp)

/-- The first tag of a node with its name or path. -/
def flattenBegin (vi : VersionInfo) (info : NodeInfo) (s : Bufs) : Bufs :=
  ((s.cell fdtBeginNode).string (if vi.ftfFullpath then info.fullpath else info.name) 0).align 4

def flattenHead (vi : VersionInfo) (info : NodeInfo) (s : Bufs) : Bufs :=
  flattenAllProps vi info (flattenBegin vi info s)

theorem flattenTree_eq (info : NodeInfo) (children : List Node) (hdel : info.deleted = false) (s : Bufs) :
    flattenTree vi (.mk info children) s =
      (flattenChildren vi children (flattenHead vi info s)).cell fdtEndNode := by
  rw [flattenTree, hdel]
  rfl

theorem cell_le_flattenHead (vi : VersionInfo) (info : NodeInfo) (s : Bufs) :
    s.cell fdtBeginNode ≤ flattenHead vi info s :=
  ((Bufs.le_data _ _).trans (Bufs.le_align _ 4)).trans (le_flattenAllProps vi info _)

theorem aligned_flattenHead (vi : VersionInfo) (info : NodeInfo) (s : Bufs) : (flattenHead vi info s).Aligned :=
  aligned_flattenAllProps info (aligned_align _)

theorem aligned_cell (hs : s.Aligned) (v : ℕ) : (s.cell v).Aligned := by
  rw [Bufs.Aligned, Bufs.length_cell]
  exact Nat.dvd_add hs ⟨1, rfl⟩

theorem flattenChildren_grows (vi : VersionInfo) (children : List Node)
    (ih : ∀ c ∈ children, ∀ s : Bufs, s.Aligned → s ≤ flattenTree vi c s ∧ (flattenTree vi c s).Aligned)
    (hs : s.Aligned) : s ≤ flattenChildren vi children s ∧ (flattenChildren vi children s).Aligned := by
  induction children generalizing s with
  | nil => exact ⟨le_rfl, hs⟩
  | cons c cs ihcs =>
    have htail := fun {s} => ihcs (fun d hd => ih d (List.mem_cons_of_mem c hd)) (s := s)
    rw [flattenChildren]
    split
    · exact htail hs
    · obtain ⟨hle, haligned⟩ := ih c List.mem_cons_self s hs
      exact ⟨hle.trans (htail haligned).1, (htail haligned).2⟩

theorem flattenTree_grows (vi : VersionInfo) (n : Node) (s : Bufs) (hs : s.Aligned) :
    s ≤ flattenTree vi n s ∧ (flattenTree vi n s).Aligned := by
  induction n generalizing s with
  | mk info children ih =>
    cases hdel : info.deleted with
    | true =>
      rw [flattenTree, if_pos hdel]
      exact ⟨le_rfl, hs⟩
    | false =>
      rw [flattenTree_eq info children hdel]
      obtain ⟨hle, haligned⟩ := flattenChildren_grows vi children ih (aligned_flattenHead vi info s)
      have hhead := (s.le_cell _).trans (cell_le_flattenHead vi info s)
      exact ⟨(hhead.trans hle).trans (Bufs.le_cell _ _), aligned_cell haligned _⟩

/-- The first tag of a tree that is not deleted. -/
theorem cell_le_flattenTree (vi : VersionInfo) {n : Node} (hdel : n.deleted = false) (s : Bufs) :
    s.cell fdtBeginNode ≤ flattenTree vi n s := by
  obtain ⟨info, children⟩ := n
  rw [flattenTree_eq info children hdel]
  have hchildren := flattenChildren_grows vi children (fun c _ => flattenTree_grows vi c)
    (aligned_flattenHead vi info s)
  exact ((cell_le_flattenHead vi info s).trans hchildren.1).trans (Bufs.le_cell _ _)

/-- A node with what `fill_fullpaths` works out for it. -/
def NodeInfo.fill (info : NodeInfo) (pre : CString) : NodeInfo :=
  { info with fullpath := joinPath pre info.name, basenamelen := unitPosition info.name }

theorem fillFullpaths_mk (info : NodeInfo) (children : List Node) (pre : CString) :
    fillFullpaths (.mk info children) pre =
      .mk (info.fill pre) (fillChildren children (joinPath pre info.name)) := by
  rw [fillFullpaths]
  rfl

@[simp] theorem deleted_fillFullpaths (n : Node) (pre : CString) :
    (fillFullpaths n pre).deleted = n.deleted := by
  cases n
  rw [fillFullpaths]
  rfl

/-- The tree is read from behind its first tag on. -/
def ReadsTree (blob : List Byte) (dtbuf strbuf : Inbuf) (out : Bufs) (vi : VersionInfo) (n : Node) : Prop :=
  ∀ (pre flat : CString) (s : Bufs) (fuel : ℕ), n.deleted = false →
    (vi.ftfFullpath = true → flat = pre ∧ OldNames pre n) → s.Aligned →
    flattenTree vi (fillFullpaths n pre) s ≤ out → Room out (s.cell fdtBeginNode) fuel →
    Gives (unflattenTree blob dtbuf strbuf vi.ftfFullpath fuel flat) (dtbuf.pos (s.cell fdtBeginNode))
      (stored vi n) (dtbuf.pos (flattenTree vi (fillFullpaths n pre) s))

theorem continues_children (h : Holds blob dtbuf strbuf out) (children : List Node)
    (ih : ∀ c ∈ children, ReadsTree blob dtbuf strbuf out vi c) (pre flat : CString)
    (hnames : vi.ftfFullpath = true → flat = pre ∧ OldChildren pre children) (hs : s.Aligned)
    (hout : flattenChildren vi (fillChildren children pre) s ≤ out) (node : Node) :
    Continues (Room out) dtbuf.pos
      (fun n => unflattenTree.unflattenBody blob dtbuf strbuf vi.ftfFullpath n flat) s node
      (flattenChildren vi (fillChildren children pre) s)
      (.mk node.info (node.children ++ storedChildren vi children)) := by
  induction children generalizing s node with
  | nil =>
    rw [storedChildren, List.append_nil, Node.mk_info_children, fillChildren, flattenChildren]
    exact continues_refl _ _
  | cons c cs ihcs =>
    have htail := fun {s} => ihcs (s := s) (fun d hd => ih d (List.mem_cons_of_mem c hd))
      fun hfull => ⟨(hnames hfull).1, (hnames hfull).2.2⟩
    cases hdel : c.deleted with
    | true =>
      rw [fillChildren, flattenChildren, hdel] at hout ⊢
      simp only [if_true, hdel] at hout ⊢
      rw [storedChildren, if_pos hdel]
      exact htail hs hout node
    | false =>
      rw [fillChildren, flattenChildren, hdel] at hout ⊢
      simp only [deleted_fillFullpaths, hdel, Bool.false_eq_true, if_false] at hout ⊢
      obtain ⟨hle, haligned⟩ := flattenTree_grows vi (fillFullpaths c pre) s hs
      have hmid :=
        (flattenChildren_grows vi (fillChildren cs pre) (fun d _ => flattenTree_grows vi d) haligned).1.trans hout
      have hrest := htail haligned hout (addChild node (stored vi c))
      rw [addChild, Node.info_mk, Node.children_mk, List.append_assoc, List.singleton_append] at hrest
      rw [storedChildren, hdel, if_neg Bool.false_ne_true]
      refine Continues.trans ?_ hrest
      intro fuel hroom
      have hdel' : (fillFullpaths c pre).deleted = false := by rw [deleted_fillFullpaths, hdel]
      have hcell := (cell_le_flattenTree vi hdel' s).trans hmid
      obtain ⟨fuel, rfl, hleft⟩ := hroom.step (s.cell fdtBeginNode) (Bufs.length_cell s _).ge hcell
      refine ⟨fuel, ?_, fun b q hb => ?_⟩
      · have hlen := (cell_le_flattenTree vi hdel' s).1.length_le
        rw [Room] at hleft ⊢
        omega
      · have hword := (reads_cell h (v := fdtBeginNode) (by decide)).reads s hs hcell
        have hchild := ih c List.mem_cons_self pre flat s fuel hdel
          (fun hfull => ⟨(hnames hfull).1, (hnames hfull).2.1 hdel⟩) hs hmid hleft
        exact hword.bind (.ite_neg (by decide) (.ite_pos rfl (hchild.bind hb)))

theorem length_flattenBegin (info : NodeInfo) (hs : s.Aligned) :
    (s.cell fdtBeginNode).dtbuf.length + 4 ≤ (flattenBegin vi info s).dtbuf.length := by
  obtain ⟨k, hk⟩ := aligned_cell hs fdtBeginNode
  obtain ⟨l, hl⟩ := aligned_align ((s.cell fdtBeginNode).string
    (if vi.ftfFullpath then info.fullpath else info.name) 0)
  have hle := (Bufs.le_align ((s.cell fdtBeginNode).string
    (if vi.ftfFullpath then info.fullpath else info.name) 0) 4).1.length_le
  rw [Bufs.string, Bufs.length_data, List.length_append, List.length_singleton] at hle
  rw [flattenBegin]
  rw [Bufs.string] at hl ⊢
  omega

theorem readsTree (h : Holds blob dtbuf strbuf out) (hflags : vi.ftfVaralign = vi.ftfFullpath)
    (hnameprops : vi.ftfNameprops = vi.ftfFullpath) (n : Node) : ReadsTree blob dtbuf strbuf out vi n := by
  induction n with
  | mk info children ih =>
    intro pre flat s fuel hdel hnames hs hout hroom
    rw [fillFullpaths_mk, flattenTree_eq (info.fill pre) _ hdel] at hout ⊢
    have hend := (Bufs.le_cell _ _).trans hout
    have hchildren := flattenChildren_grows vi (fillChildren children (joinPath pre info.name))
      (fun c _ => flattenTree_grows vi c) (aligned_flattenHead vi (info.fill pre) s)
    have hhead := hchildren.1.trans hend
    have hbegin := (le_flattenAllProps vi (info.fill pre) _).trans hhead
    obtain ⟨fuel, rfl, hleft⟩ := hroom.step _ (length_flattenBegin (info.fill pre) hs) hbegin
    have hstring := (reads_string h _).reads (s.cell fdtBeginNode) (aligned_cell hs _) hbegin
    have hname : ∀ p, Gives (if vi.ftfFullpath then nodenameFromPath flat (if vi.ftfFullpath then
        (info.fill pre).fullpath else (info.fill pre).name) else pure (if vi.ftfFullpath then
        (info.fill pre).fullpath else (info.fill pre).name)) p info.name p := by
      intro p
      by_cases hfull : vi.ftfFullpath = true
      · obtain ⟨rfl, hopen, -⟩ := hnames hfull
        rw [if_pos hfull, if_pos hfull]
        exact gives_nodename hopen info.name _
      · rw [if_neg hfull, if_neg hfull]
        exact gives_pure.mpr ⟨rfl, rfl⟩
    refine hstring.bind ((hname _).bind ?_)
    have hallprops := continues_allProps (if vi.ftfFullpath then (info.fill pre).fullpath else
      (info.fill pre).name) (info.fill pre) h hflags rfl
      (fun hprops => (hnames (hnameprops ▸ hprops)).2.2.1) (aligned_align _) hhead info.name
    have hcs := continues_children h children ih (joinPath pre info.name)
      (if vi.ftfFullpath then (info.fill pre).fullpath else (info.fill pre).name)
      (fun hfull => ⟨if_pos hfull, (hnames hfull).2.2.2⟩) (aligned_flattenHead vi (info.fill pre) s) hend
    obtain ⟨n, hn, hgives⟩ := (hallprops.trans (hcs _)) fuel hleft
    obtain ⟨n, rfl, -⟩ := hn.step _ (Bufs.length_cell _ fdtEndNode).ge hout
    have hword := (reads_cell h (v := fdtEndNode) (by decide)).reads _ hchildren.2 hout
    refine hgives _ _ (hword.bind ?_)
    refine .ite_neg (by decide) (.ite_neg (by decide) (.ite_pos rfl (gives_pure.mpr ⟨?_, rfl⟩)))
    rw [stored]
    rfl

end Trees

end PynqPrio.Dtc
