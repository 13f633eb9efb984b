import PynqPrio.DtcBlobs

/-!
# Reading whatever is in a file

Every tag moves the reader on by four bytes at least and leaves it at a multiple of four within
the blob. From that the reader of any file comes to an end, no assertion fails, and what it
accepts is a tree that can be written again.
-/
namespace PynqPrio.Dtc
open Formats

/-- A place in a part of the blob where a word can be read. -/
structure At (inb : Inbuf) (p : ℕ) : Prop where
  base : inb.base ≤ p
  aligned : 4 ∣ p - inb.base
  limit : p ≤ inb.limit

section Pieces

variable {blob : List Byte} {inb : Inbuf} {p : ℕ} {E : Stop → Prop}

theorem ends_chunk (hlimit : inb.limit ≤ blob.length) (hdie : ∀ m, E (.die m)) (len : ℕ) :
    Ends (flatReadChunk blob inb len) p (fun bs q => bs.length = len ∧ q = p + len ∧ q ≤ inb.limit) E := by
  refine .get_bind (ends_ite (fun _ => ends_throw (hdie _)) fun hle => ?_)
  refine ends_ite (fun hlt => by omega) fun hlt => ?_
  exact .set_bind (ends_pure ⟨length_slice (by omega), rfl, by omega⟩)

theorem ends_word (hlimit : inb.limit ≤ blob.length) (hdie : ∀ m, E (.die m)) (hp : At inb p) :
    Ends (flatReadWord blob inb) p (fun v q => v < 256 ^ 4 ∧ q = p + 4 ∧ At inb q) E := by
  refine .get_bind (ends_ite (fun hmod => absurd (Nat.mod_eq_zero_of_dvd hp.aligned) hmod) fun _ => ?_)
  refine (ends_chunk hlimit hdie 4).bind ?_
  rintro bs _ ⟨hlen, rfl, hle⟩
  have hdvd : 4 ∣ p + 4 - inb.base := by
    rw [Nat.sub_add_comm hp.base]
    exact Nat.dvd_add hp.aligned ⟨1, rfl⟩
  exact ends_pure ⟨hlen ▸ ofBytes_lt bs, rfl, hp.base.trans (Nat.le_add_right p 4), hdvd, hle⟩

theorem ends_realign (hdie : ∀ m, E (.die m)) {a : ℕ} (ha : 0 < a) (hfour : 4 ∣ a) (hp : inb.base ≤ p) :
    Ends (flatRealign inb a) p (fun _ q => p ≤ q ∧ At inb q) E := by
  refine .get_bind (ends_ite (fun _ => ends_throw (hdie _)) fun hle => ends_set ?_)
  have halign := le_align ha (p - inb.base)
  refine ⟨by omega, Nat.le_add_right _ _, ?_, by omega⟩
  rw [Nat.add_sub_cancel_left]
  exact Nat.dvd_trans hfour (dvd_align _ _)

theorem ends_cstring {lo limit : ℕ} {message : Message} (hlimit : limit ≤ blob.length) (hdie : ∀ m, E (.die m)) :
    Ends (readCString blob lo limit message) p (fun _ q => q = p) E := by
  rw [readCString]
  split
  · exact ends_pure rfl
  · exact ends_ite (fun hlt => by omega) fun _ => ends_throw (hdie _)

theorem ends_string (hlimit : inb.limit ≤ blob.length) (hdie : ∀ m, E (.die m)) (hp : At inb p) :
    Ends (flatReadString blob inb) p (fun _ q => p + 4 ≤ q ∧ At inb q) E := by
  refine .get_bind ((ends_cstring hlimit hdie).bind ?_)
  rintro str _ rfl
  refine .set_bind ?_
  have hbase := hp.base
  refine (ends_realign hdie (by decide) ⟨1, rfl⟩ (by omega)).bind ?_
  rintro _ q ⟨hle, hq⟩
  obtain ⟨k, hk⟩ := hp.aligned
  obtain ⟨l, hl⟩ := hq.aligned
  have hqbase := hq.base
  exact ends_pure ⟨by omega, hq⟩

theorem ends_data (hlimit : inb.limit ≤ blob.length) (hdie : ∀ m, E (.die m)) (hp : At inb p) (len : ℕ) :
    Ends (flatReadData blob inb len) p (fun _ q => p ≤ q ∧ At inb q) E := by
  refine ends_ite (fun _ => ends_pure ⟨le_rfl, hp⟩) fun _ => ?_
  refine ends_ite (fun _ => ends_throw (hdie _)) fun _ => ?_
  refine (ends_chunk hlimit hdie len).bind ?_
  rintro bs _ ⟨-, rfl, -⟩
  have hbase := hp.base
  refine (ends_realign hdie (by decide) ⟨1, rfl⟩ (by omega)).bind ?_
  rintro _ q ⟨hle, hq⟩
  exact ends_pure ⟨by omega, hq⟩

theorem ends_stringtable (hlimit : inb.limit ≤ blob.length) (hdie : ∀ m, E (.die m)) (offset : ℕ) :
    Ends (flatReadStringtable blob inb offset) p (fun _ q => q = p) E :=
  ends_ite (fun _ => ends_throw (hdie _)) fun _ => ends_cstring hlimit hdie

end Pieces

section Properties

variable {blob : List Byte} {dtbuf strbuf : Inbuf} {p : ℕ} {E : Stop → Prop}

def Property.Plain (prop : Property) : Prop := ∃ name val, prop = buildProperty name { val }

theorem ends_property (hdt : dtbuf.limit ≤ blob.length) (hstr : strbuf.limit ≤ blob.length)
    (hdie : ∀ m, E (.die m)) (hp : At dtbuf p) (varalign : Bool) :
    Ends (flatReadProperty blob dtbuf strbuf varalign) p
      (fun prop q => prop.Plain ∧ p ≤ q ∧ At dtbuf q) E := by
  refine (ends_word hdt hdie hp).bind ?_
  rintro proplen _ ⟨-, rfl, hfirst⟩
  refine (ends_word hdt hdie hfirst).bind ?_
  rintro stroff _ ⟨-, rfl, hsecond⟩
  refine (ends_stringtable hstr hdie stroff).bind ?_
  rintro name _ rfl
  refine Ends.bind (Q := fun _ q => p + 4 + 4 ≤ q ∧ At dtbuf q) ?_ ?_
  · exact ends_ite (fun _ => ends_realign hdie (by decide) ⟨2, rfl⟩ hsecond.base)
      fun _ => ends_pure ⟨le_rfl, hsecond⟩
  · rintro _ q ⟨hle, hq⟩
    refine (ends_data hdt hdie hq proplen).bind ?_
    rintro val r ⟨hle', hr⟩
    exact ends_pure ⟨⟨name, val, rfl⟩, by omega, hr⟩

end Properties

section Plain

/-- A node as a blob has it: without labels and marks, and so are the nodes below. -/
def Node.Plain (n : Node) : Prop := visible n = n

variable {info : NodeInfo} {children : List Node}

theorem plain_mk : (Node.mk info children).Plain ↔
    { name := info.name, proplist := visibleProps info.proplist } = info ∧
      visibleChildren children = children := by
  rw [Node.Plain, visible, buildNode, Node.mk.injEq]

theorem Node.Plain.not_deleted {n : Node} (h : n.Plain) : n.deleted = false := by
  obtain ⟨info, children⟩ := n
  have hinfo := (plain_mk.mp h).1
  exact (congrArg NodeInfo.deleted hinfo).symm

theorem plain_buildNode (name : CString) : (buildNode name [] []).Plain := plain_mk.mpr ⟨rfl, rfl⟩

theorem visibleProps_append (ps qs : List Property) :
    visibleProps (ps ++ qs) = visibleProps ps ++ visibleProps qs := by
  rw [visibleProps, List.filter_append, List.map_append]
  rfl

theorem plain_addProperty {prop : Property} (h : (Node.mk info children).Plain) (hprop : prop.Plain) :
    (Node.mk (addProperty info prop) children).Plain := by
  obtain ⟨hinfo, hchildren⟩ := plain_mk.mp h
  obtain ⟨name, val, rfl⟩ := hprop
  have hprops : visibleProps info.proplist = info.proplist := congrArg NodeInfo.proplist hinfo
  have hone : visibleProps [buildProperty name { val }] = [buildProperty name { val }] := rfl
  refine plain_mk.mpr ⟨?_, hchildren⟩
  rw [addProperty, visibleProps_append, hprops, hone]
  rw [hprops] at hinfo
  exact congrArg (addProperty · (buildProperty name { val })) hinfo

theorem visibleChildren_append (cs ds : List Node) :
    visibleChildren (cs ++ ds) = visibleChildren cs ++ visibleChildren ds := by
  induction cs with
  | nil => rfl
  | cons c cs ih =>
    rw [List.cons_append, visibleChildren, visibleChildren]
    split
    · exact ih
    · rw [ih, List.cons_append]

theorem plain_addChild {node child : Node} (h : node.Plain) (hchild : child.Plain) :
    (addChild node child).Plain := by
  obtain ⟨info, children⟩ := node
  obtain ⟨hinfo, hchildren⟩ := plain_mk.mp h
  refine plain_mk.mpr ⟨hinfo, ?_⟩
  rw [Node.children_mk, visibleChildren_append, hchildren, visibleChildren, hchild.not_deleted,
    visibleChildren, if_neg Bool.false_ne_true]
  exact congrArg (fun c => children ++ [c]) hchild

end Plain

section Trees

variable {blob : List Byte} {dtbuf strbuf : Inbuf} {E : Stop → Prop}

theorem ends_nodename (hdie : ∀ m, E (.die m)) (hout : E .outside) (ppath cpath : CString) (p : ℕ) :
    Ends (nodenameFromPath ppath cpath) p (fun _ q => q = p) E :=
  ends_ite (fun _ => ends_ite (fun _ => ends_throw hout) fun _ => ends_pure rfl)
    fun _ => ends_throw (hdie _)

/-- The fuel lasts for the tags up to the limit. -/
def Lasts (dtbuf : Inbuf) (p fuel : ℕ) : Prop := dtbuf.limit + 4 ≤ p + 4 * fuel

theorem ends_unflatten (old : Bool) (hdt : dtbuf.limit ≤ blob.length) (hstr : strbuf.limit ≤ blob.length)
    (hdie : ∀ m, E (.die m)) (hold : old = true → E .outside) (fuel : ℕ) :
    (∀ flat p, At dtbuf p → Lasts dtbuf p fuel →
      Ends (unflattenTree blob dtbuf strbuf old fuel flat) p
        (fun n q => n.Plain ∧ p + 4 ≤ q ∧ At dtbuf q) E) ∧
    (∀ flat node p, Node.Plain node → At dtbuf p → Lasts dtbuf p fuel →
      Ends (unflattenTree.unflattenBody blob dtbuf strbuf old fuel flat node) p
        (fun n q => n.Plain ∧ p + 4 ≤ q ∧ At dtbuf q) E) := by
  induction fuel with
  | zero =>
    have hempty : ∀ p, At dtbuf p → ¬Lasts dtbuf p 0 := by
      intro p hp hlasts
      have hlimit := hp.limit
      rw [Lasts] at hlasts
      omega
    exact ⟨fun _ p hp hlasts => absurd hlasts (hempty p hp), fun _ _ p _ hp hlasts => absurd hlasts (hempty p hp)⟩
  | succ fuel ih =>
    have hnext : ∀ {p q}, Lasts dtbuf p (fuel + 1) → p + 4 ≤ q → Lasts dtbuf q fuel := by
      intro p q hlasts hle
      rw [Lasts] at hlasts ⊢
      omega
    obtain ⟨htree, hbody⟩ := ih
    constructor
    · intro flat p hp hlasts
      refine (ends_string hdt hdie hp).bind ?_
      rintro flatname q ⟨hle, hq⟩
      refine Ends.bind (Q := fun _ r => r = q) ?_ ?_
      · exact ends_ite (fun h => ends_nodename hdie (hold h) _ _ _) fun _ => ends_pure rfl
      · rintro name _ rfl
        refine (hbody flatname _ _ (plain_buildNode name) hq (hnext hlasts hle)).imp ?_
        rintro n r ⟨hn, hr, hat⟩
        exact ⟨hn, by omega, hat⟩
    · intro flat node p hnode hp hlasts
      refine (ends_word hdt hdie hp).bind ?_
      rintro val _ ⟨-, rfl, hq⟩
      have hrest : ∀ node' r, Node.Plain node' → p + 4 ≤ r → At dtbuf r →
          Ends (unflattenTree.unflattenBody blob dtbuf strbuf old fuel flat node') r
            (fun n q => n.Plain ∧ p + 4 ≤ q ∧ At dtbuf q) E := by
        intro node' r hnode' hle hr
        refine (hbody flat node' r hnode' hr (hnext hlasts hle)).imp ?_
        rintro n q ⟨hn, hq, hat⟩
        exact ⟨hn, by omega, hat⟩
      refine ends_ite (fun _ => ?_) fun _ => ends_ite (fun _ => ?_) fun _ => ends_ite (fun _ => ?_) fun _ =>
        ends_ite (fun _ => ends_throw (hdie _)) fun _ => ends_ite (fun _ => ?_) fun _ => ends_throw (hdie _)
      -- a property
      · refine (ends_property hdt hstr hdie hq old).bind ?_
        rintro prop r ⟨hprop, hle, hr⟩
        refine hrest _ r (plain_addProperty ?_ hprop) hle hr
        rw [Node.mk_info_children]
        exact hnode
      -- a child
      · refine (htree flat _ hq (hnext hlasts le_rfl)).bind ?_
        rintro child r ⟨hchild, hle, hr⟩
        exact hrest _ r (plain_addChild hnode hchild) (by omega) hr
      · exact ends_pure ⟨hnode, le_rfl, hq⟩
      · exact hrest node _ hnode le_rfl hq

end Trees

section Blobs

variable {blob : List Byte} {E : Stop → Prop}

theorem ends_memReserve {inb : Inbuf} (hlimit : inb.limit ≤ blob.length) (hdie : ∀ m, E (.die m)) (fuel : ℕ)
    (acc : List ReserveInfo) (hacc : ∀ re ∈ acc, re.size ≠ 0) (p : ℕ) (hp : p ≤ inb.limit)
    (hlasts : inb.limit + 16 ≤ p + 16 * fuel) :
    Ends (flatReadMemReserve blob inb fuel acc) p (fun l _ => ∀ re ∈ l, re.size ≠ 0) E := by
  induction fuel generalizing acc p with
  | zero => omega
  | succ fuel ih =>
    refine (ends_chunk hlimit hdie sizeofReserveEntry).bind ?_
    rintro re _ ⟨-, rfl, hle⟩
    rw [sizeofReserveEntry] at hle ⊢
    refine ends_ite (fun _ => ends_pure hacc) fun hsize => ih _ ?_ _ hle (by omega)
    intro re hre
    obtain hre | hre := List.mem_append.mp hre
    · exact hacc re hre
    · rw [List.mem_singleton.mp hre]
      exact hsize

/-- A tree as a blob has it, with reservations up to where they end. -/
structure DtInfo.Plain (dti : DtInfo) : Prop where
  dtsflags : dti.dtsflags = dtsfV1
  reserve : ∀ re ∈ dti.reservelist, re.size ≠ 0
  dt : dti.dt.Plain

theorem outcome_check {c : Prop} [Decidable c] (hdie : ∀ m, E (.die m)) (message : Message) :
    Outcome (check c message) (fun _ => ¬c) E :=
  outcome_ite (fun _ => outcome_throw (hdie _)) fun hc => outcome_pure hc

theorem outcome_readTree {version boot : ℕ} {memresvbuf dtbuf strbuf : Inbuf}
    (hrsv : memresvbuf.limit = blob.length) (hdt : dtbuf.limit = blob.length)
    (hstr : strbuf.limit ≤ blob.length) (hrsvBase : memresvbuf.base < blob.length)
    (hdtBase : dtbuf.base < blob.length) (hmin : 28 ≤ blob.length) (hdie : ∀ m, E (.die m))
    (hold : version < 16 → E .outside) :
    Outcome (readTree blob version boot memresvbuf dtbuf strbuf) DtInfo.Plain E := by
  have hreserve := ends_memReserve hrsv.le hdie blob.length [] nofun memresvbuf.base
    (by omega) (by omega)
  refine hreserve.outcome.bind ?_
  rintro ⟨reservelist, m⟩ hsizes
  have hstart : At dtbuf dtbuf.base := ⟨le_rfl, by rw [Nat.sub_self]; exact Nat.dvd_zero 4, by omega⟩
  refine (ends_word hdt.le hdie hstart).outcome.bind ?_
  rintro ⟨val, p⟩ ⟨-, rfl, hp⟩
  refine (outcome_check hdie _).bind fun _ _ => ?_
  have htree := (ends_unflatten (decide (version < 16)) hdt.le hstr hdie
    (fun h => hold (of_decide_eq_true h)) blob.length).1 .empty (dtbuf.base + 4) hp (by rw [Lasts]; omega)
  refine htree.outcome.bind ?_
  rintro ⟨dt, q⟩ ⟨hplain, -, hq⟩
  refine (ends_word hdt.le hdie hq).outcome.bind ?_
  rintro ⟨val', r⟩ -
  exact (outcome_check hdie _).bind fun _ _ => outcome_pure ⟨rfl, hsizes, hplain⟩

theorem outcome_headerWord {i : ℕ} (hdie : blob.length < 4 * i + 4 → E .outside) :
    Outcome (headerWord blob i) (fun w => w = ofBytes (slice blob (4 * i) 4)) E :=
  outcome_ite (fun h => outcome_throw (hdie h)) fun _ => outcome_pure rfl

theorem outcome_readBlob {file : List Byte} (hsize : file.length < 2 ^ 31) (hdie : ∀ m, E (.die m)) :
    Outcome (readBlob file)
      (fun blob => blob = file.take (ofBytes (slice file 4 4)) ∧ blob.length = ofBytes (slice file 4 4) ∧
        28 ≤ blob.length) E := by
  refine (outcome_check hdie _).bind fun _ _ => (outcome_check hdie _).bind fun _ _ =>
    (outcome_check hdie _).bind fun _ _ => (outcome_check hdie _).bind fun _ hmin =>
    (outcome_check hdie _).bind fun _ heof => ?_
  refine outcome_ite (fun h => absurd h (by omega)) fun _ => outcome_pure ?_
  have hlen : (file.take (ofBytes (slice file 4 4))).length = ofBytes (slice file 4 4) := by
    rw [List.length_take]
    omega
  exact ⟨rfl, hlen, by omega⟩

theorem outcome_initStrbuf {version offStr : ℕ} (hdie : ∀ m, E (.die m))
    (hshort : blob.length < 40 → E .outside) : Outcome (initStrbuf blob version offStr)
    (fun strbuf => strbuf.limit ≤ blob.length) E := by
  refine outcome_ite (fun _ => ?_) fun _ => outcome_pure le_rfl
  refine (outcome_headerWord fun h => hshort (by omega)).bind fun sizeStr _ => ?_
  exact (outcome_check hdie _).bind fun _ hlimit => outcome_pure (Nat.le_of_not_lt hlimit)

theorem outcome_checkStructsize {version offDt : ℕ} (hdie : ∀ m, E (.die m))
    (hshort : blob.length < 40 → E .outside) :
    Outcome (checkStructsize blob version offDt) (fun _ => True) E := by
  refine outcome_ite (fun _ => ?_) fun _ => outcome_pure (P := fun _ => True) trivial
  refine (outcome_headerWord fun h => hshort (by omega)).bind fun sizeDt _ => ?_
  exact ⟨fun _ _ => trivial, (outcome_check hdie _).error⟩

def fileTotalsize (file : List Byte) : ℕ := ofBytes (slice file 4 4)
def fileVersion (file : List Byte) : ℕ := ofBytes (slice file 20 4)

/-- What reading a file may end with otherwise than with a tree. -/
def Stop.Expected (file : List Byte) : Stop → Prop
  | .die _ => True
  | .outside => fileTotalsize file < 40 ∨ fileVersion file < 16
  | .assertion => False
  | .fuel => False

/-- Each part of the blob is read with one of these outcomes. -/
theorem outcome_dtFromBlob (file : List Byte) (hsize : file.length < 2 ^ 31) :
    Outcome (dtFromBlob file) DtInfo.Plain (Stop.Expected file) := by
  have hdie : ∀ m, Stop.Expected file (.die m) := fun _ => trivial
  refine (outcome_readBlob hsize hdie).bind ?_
  rintro blob ⟨hblob, hlen, hmin⟩
  have hshort : blob.length < 40 → Stop.Expected file .outside := fun h => .inl (lt_of_eq_of_lt hlen.symm h)
  refine (outcome_headerWord fun h => hshort (by omega)).bind fun offDt _ => ?_
  refine (outcome_headerWord fun h => hshort (by omega)).bind fun offStr _ => ?_
  refine (outcome_headerWord fun h => hshort (by omega)).bind fun offMemRsvmap _ => ?_
  refine (outcome_headerWord fun h => hshort (by omega)).bind fun version hversion => ?_
  refine (outcome_headerWord fun h => hshort (by omega)).bind fun boot _ => ?_
  refine (outcome_check hdie _).bind fun _ hrsv => (outcome_check hdie _).bind fun _ hdt =>
    (outcome_check hdie _).bind fun _ hstr => ?_
  have hold : version < 16 → Stop.Expected file .outside := by
    intro h
    rw [hversion, hblob, slice_take (by omega)] at h
    exact .inr h
  refine (outcome_initStrbuf hdie hshort).bind fun strbuf hlimit => ?_
  refine (outcome_checkStructsize hdie hshort).bind fun _ _ => ?_
  exact outcome_readTree rfl rfl hlimit (Nat.lt_of_not_le hrsv) (Nat.lt_of_not_le hdt) hmin hdie hold

/-- Any file ends in a tree as a blob has it or in a message. Nothing outside of the blob is read
unless the blob is shorter than a header or of a version below 16. -/
theorem dtFromBlob_outcome (file : List Byte) (hsize : file.length < 2 ^ 31) :
    (∃ dti, dtFromBlob file = .ok dti ∧ dti.Plain) ∨ (∃ m, dtFromBlob file = .error (.die m)) ∨
      dtFromBlob file = .error .outside ∧ (fileTotalsize file < 40 ∨ fileVersion file < 16) := by
  obtain ⟨hok, herror⟩ := outcome_dtFromBlob file hsize
  cases hread : dtFromBlob file with
  | ok dti => exact .inl ⟨dti, rfl, hok dti hread⟩
  | error stop =>
    have hexpected := herror stop hread
    cases stop with
    | die m => exact .inr (.inl ⟨m, rfl⟩)
    | outside => exact .inr (.inr ⟨rfl, hexpected⟩)
    | assertion => exact hexpected.elim
    | fuel => exact hexpected.elim

theorem dtFromBlob_outcome_sample : ∃ blob dti, dtToBlob {} sampleTree.filled 17 = some blob ∧
    dtFromBlob blob = .ok dti ∧ dti.Plain := by
  have hrow : ∃ vi, findVersion 17 = some vi ∧ (assembleBlob {} sampleTree.filled vi).length < 2 ^ 31 :=
    ⟨_, rfl, by decide +kernel⟩
  obtain ⟨vi, hfind, hsize⟩ := hrow
  have hread := dtFromBlob_assembleBlob [] (findVersion_spec hfind).1 rfl rfl (fun _ => oldNames_sampleTree) hsize
  rw [List.append_nil] at hread
  obtain ⟨dti, hdti, hplain⟩ | ⟨m, hdie⟩ | ⟨hout, -⟩ := dtFromBlob_outcome _ hsize
  · exact ⟨_, dti, by rw [dtToBlob, hfind]; rfl, hdti, hplain⟩
  · cases hread.symm.trans hdie
  · cases hread.symm.trans hout

/-- A file that is as short as the checks allow has no place for the fields of the later versions. -/
example : dtFromBlob ([fdtMagic, 28, 0, 0, 0, 1, 1].flatMap (toBytes 4)) = .error .outside := rfl

end Blobs

section Conversion

variable {o : Options} {dti : DtInfo} {file blob : List Byte} {version : ℕ} {vi : VersionInfo}

/-- The new versions hold what is visible of a tree and no more. -/
theorem stored_eq_visible (hvi : vi.ftfNameprops = false) (n : Node) : stored vi n = visible n := by
  induction n with
  | mk info children ih =>
    have hchildren : storedChildren vi children = visibleChildren children := by
      induction children with
      | nil => rfl
      | cons c cs ihcs =>
        rw [storedChildren, visibleChildren, ih c List.mem_cons_self,
          ihcs fun d hd => ih d (List.mem_cons_of_mem c hd)]
    rw [stored, visible, hchildren, storedProps, hvi, Bool.false_and, if_neg Bool.false_ne_true,
      List.append_nil]

/-- A blob that is accepted, of whatever version, is converted to a new version without a loss. -/
theorem accepted_converted (rest : List Byte) (hfile : file.length < 2 ^ 31) (hread : dtFromBlob file = .ok dti)
    (hversion : 16 ≤ version) (hblob : dtToBlob o dti.filled version = some blob) (hsize : blob.length < 2 ^ 31) :
    dtFromBlob (blob ++ rest) = .ok dti := by
  have hplain := (outcome_dtFromBlob file hfile).ok dti hread
  obtain ⟨vi, hfind, rfl⟩ := Option.map_eq_some_iff.mp hblob
  obtain ⟨hvi, rfl⟩ := findVersion_spec hfind
  have hagain := dtFromBlob_assembleBlob rest hvi rfl hplain.dt.not_deleted (fun h => absurd h (by omega)) hsize
  have hrows : ∀ vi ∈ versionTable, 16 ≤ vi.version → vi.ftfNameprops = false ∧ vi.ftfBootcpuid = true := by
    decide
  obtain ⟨hnameprops, hboot⟩ := hrows vi hvi hversion
  have hreserve : dti.reservelist.takeWhile (·.size ≠ 0) = dti.reservelist := by
    rw [List.takeWhile_eq_self_iff]
    exact fun re hre => decide_eq_true (hplain.reserve re hre)
  rw [hagain]
  dsimp only [DtInfo.filled]
  rw [hreserve, hboot, if_pos rfl, stored_eq_visible hnameprops, ← hplain.dtsflags]
  rw [show visible dti.dt = dti.dt from hplain.dt]

theorem accepted_converted_sample : ∃ old new dti, dtToBlob {} sampleTree.filled 3 = some old ∧
    dtFromBlob old = .ok dti ∧ dtToBlob {} dti.filled 17 = some new ∧ dtFromBlob (new ++ []) = .ok dti := by
  have hrow : ∃ vi, findVersion 3 = some vi ∧ (assembleBlob {} sampleTree.filled vi).length < 2 ^ 31 ∧
      vi.ftfBootcpuid = true ∧ ∃ new,
        dtToBlob {} (DtInfo.filled ⟨dtsfV1, [⟨4096, 16⟩], 1, stored vi sampleTree.dt⟩) 17 = some new ∧
          new.length < 2 ^ 31 :=
    ⟨_, rfl, by decide +kernel, rfl, _, rfl, by decide +kernel⟩
  obtain ⟨vi, hfind, hsize, hboot, new, hnew, hnewSize⟩ := hrow
  have hread := dtFromBlob_assembleBlob [] (findVersion_spec hfind).1 rfl rfl
    (fun _ => oldNames_sampleTree) hsize
  rw [List.append_nil, hboot] at hread
  exact ⟨_, new, _, by rw [dtToBlob, hfind]; rfl, hread, hnew,
    accepted_converted [] hsize hread (by decide) hnew hnewSize⟩

end Conversion

end PynqPrio.Dtc
