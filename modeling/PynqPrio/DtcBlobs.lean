import PynqPrio.DtcRoundTrip

/-!
# Blobs are read back

Where the header, the reservations, the tree and the strings stand in a blob, and that reading it
gives what it was made from.
-/
namespace PynqPrio.Dtc
open Formats

section Reservations

variable {blob : List Byte} {inb : Inbuf} {p fuel : ℕ}

def reBytes (re : ReserveInfo) : List Byte := toBytes 8 re.address.toNat ++ toBytes 8 re.size.toNat

@[simp] theorem length_reBytes (re : ReserveInfo) : (reBytes re).length = sizeofReserveEntry := by
  simp [reBytes, sizeofReserveEntry]

theorem foldl_append_flatMap {α : Type} (f : α → List Byte) (l : List α) (d : List Byte) :
    l.foldl (fun d a => d ++ f a) d = d ++ l.flatMap f := by
  induction l generalizing d with
  | nil => rw [List.foldl_nil, List.flatMap_nil, List.append_nil]
  | cons a l ih => rw [List.foldl_cons, ih, List.flatMap_cons, List.append_assoc]

/-- The slots that the user asks for. -/
def emptySlots (n : ℕ) : List ReserveInfo := (List.range n).map fun _ => ⟨0, 0⟩

theorem flattenReserveList_eq (o : Options) (reservelist : List ReserveInfo) :
    flattenReserveList o reservelist = (reservelist ++ emptySlots o.reservenum).flatMap reBytes := by
  have hlist := foldl_append_flatMap reBytes reservelist []
  have hslots := foldl_append_flatMap (fun _ => reBytes ⟨0, 0⟩) (List.range o.reservenum)
    (reservelist.flatMap reBytes)
  rw [List.nil_append] at hlist
  rw [List.flatMap_append, emptySlots, List.flatMap_map, ← hslots, ← hlist]
  rfl

/-- A reservation is read from its bytes. -/
theorem gives_reserveEntry {re : ReserveInfo} {q : ℕ} {acc l : List ReserveInfo}
    (h : HasAt blob p (reBytes re)) (hlimit : p + sizeofReserveEntry ≤ inb.limit)
    (hrest : Gives (if re.size = 0 then pure acc else flatReadMemReserve blob inb fuel (acc ++ [re]))
      (p + sizeofReserveEntry) l q) : Gives (flatReadMemReserve blob inb (fuel + 1) acc) p l q := by
  have haddress : (reBytes re).take 8 = toBytes 8 re.address.toNat := by
    simp [reBytes]
  have hsize : (reBytes re).drop 8 = toBytes 8 re.size.toNat := by
    simp [reBytes]
  have hword : ∀ w : BitVec 64, BitVec.ofNat 64 (ofBytes (toBytes 8 w.toNat)) = w := by
    intro w
    rw [ofBytes_toBytes_of_lt w.isLt, BitVec.ofNat_toNat, BitVec.setWidth_eq]
  refine (gives_chunk h (length_reBytes re) hlimit).bind ?_
  rw [haddress, hsize, hword, hword]
  exact hrest

theorem length_flatMap_reBytes (l : List ReserveInfo) :
    (l.flatMap reBytes).length = sizeofReserveEntry * l.length := by
  induction l with
  | nil => rfl
  | cons re l ih =>
    rw [List.flatMap_cons, List.length_append, length_reBytes, ih, List.length_cons, Nat.mul_succ, Nat.add_comm]

theorem takeWhile_emptySlots (l : List ReserveInfo) (n : ℕ) :
    (l ++ emptySlots n).takeWhile (·.size ≠ 0) = l.takeWhile (·.size ≠ 0) := by
  induction l with
  | nil =>
    cases n with
    | zero => rfl
    | succ n =>
      rw [emptySlots, List.range_succ_eq_map]
      rfl
  | cons re l ih =>
    rw [List.cons_append, List.takeWhile_cons, List.takeWhile_cons, ih]

/-- The reservations are read up to the first one of size 0. -/
theorem gives_memReserve (l : List ReserveInfo) (last : ReserveInfo) (hlast : last.size = 0)
    (acc : List ReserveInfo) (h : HasAt blob p ((l ++ [last]).flatMap reBytes))
    (hlimit : p + ((l ++ [last]).flatMap reBytes).length ≤ inb.limit) (hfuel : l.length < fuel) :
    ∃ q, Gives (flatReadMemReserve blob inb fuel acc) p (acc ++ l.takeWhile (·.size ≠ 0)) q := by
  induction l generalizing p fuel acc with
  | nil =>
    obtain ⟨n, rfl⟩ := Nat.exists_eq_succ_of_ne_zero (Nat.ne_of_gt hfuel)
    rw [List.nil_append, List.flatMap_cons, List.flatMap_nil, List.append_nil] at h hlimit
    rw [length_reBytes] at hlimit
    refine ⟨p + sizeofReserveEntry, gives_reserveEntry h hlimit (.ite_pos hlast ?_)⟩
    rw [List.takeWhile_nil, List.append_nil]
    exact gives_pure.mpr ⟨rfl, rfl⟩
  | cons re l ih =>
    obtain ⟨n, rfl⟩ := Nat.exists_eq_succ_of_ne_zero (Nat.ne_of_gt (Nat.zero_lt_of_lt hfuel))
    rw [List.cons_append, List.flatMap_cons] at h hlimit
    rw [List.length_append, length_reBytes] at hlimit
    by_cases hzero : re.size = 0
    · refine ⟨p + sizeofReserveEntry, gives_reserveEntry h.left (by omega) (.ite_pos hzero ?_)⟩
      rw [List.takeWhile_cons_of_neg (by simpa using hzero), List.append_nil]
      exact gives_pure.mpr ⟨rfl, rfl⟩
    · have hright := h.right
      rw [length_reBytes] at hright
      obtain ⟨q, hq⟩ := ih (acc ++ [re]) hright (by omega) (Nat.lt_of_succ_lt_succ hfuel)
      rw [List.append_assoc, List.singleton_append] at hq
      refine ⟨q, gives_reserveEntry h.left (by omega) (.ite_neg hzero ?_)⟩
      rw [List.takeWhile_cons_of_pos (by simpa using hzero)]
      exact hq

end Reservations

section Layout

variable {o : Options} {dti : DtInfo} {vi : VersionInfo} {blob : List Byte} {ws : List ℕ}

def FdtHeader.words (fdt : FdtHeader) : List ℕ :=
  [fdt.magic, fdt.totalsize, fdt.offDtStruct, fdt.offDtStrings, fdt.offMemRsvmap, fdt.version,
    fdt.lastCompVersion, fdt.bootCpuidPhys, fdt.sizeDtStrings, fdt.sizeDtStruct]

theorem hasAt_words {i w : ℕ} (h : ws[i]? = some w) : HasAt (ws.flatMap (toBytes 4)) (4 * i) (toBytes 4 w) := by
  induction ws generalizing i with
  | nil => cases h
  | cons v ws ih =>
    rw [List.flatMap_cons]
    cases i with
    | zero =>
      obtain rfl := Option.some.inj h
      exact (hasAt_zero_self _).left
    | succ i =>
      rw [List.getElem?_cons_succ] at h
      have hright := (hasAt_zero_self (toBytes 4 v ++ ws.flatMap (toBytes 4))).right.trans (ih h)
      rw [length_toBytes] at hright
      rwa [show 4 * (i + 1) = 0 + 4 + 4 * i by omega]

/-- The buffers that the tree is written into. -/
def blobBufs (dti : DtInfo) (vi : VersionInfo) : Bufs := (flattenTree vi dti.dt {}).cell fdtEnd

/-- The reservations of a blob, with the one that ends them. -/
def blobReserves (o : Options) (dti : DtInfo) : List ReserveInfo :=
  dti.reservelist ++ emptySlots o.reservenum ++ [⟨0, 0⟩]

/-- The header without the padding behind the blob. -/
def plainHeader (o : Options) (dti : DtInfo) (vi : VersionInfo) : FdtHeader :=
  makeFdtHeader vi (flattenReserveList o dti.reservelist).length (blobBufs dti vi).dtbuf.length
    (blobBufs dti vi).strbuf.length dti.bootCpuidPhys.toNat

def blobHeader (o : Options) (dti : DtInfo) (vi : VersionInfo) : FdtHeader :=
  { plainHeader o dti vi with
    totalsize := (plainHeader o dti vi).totalsize + padLen o (plainHeader o dti vi).totalsize }

/-- The header up to where the reservations begin. -/
def headBytes (o : Options) (dti : DtInfo) (vi : VersionInfo) : List Byte :=
  dataAppendAlign ((blobHeader o dti vi).bytes.take vi.hdrSize) 8

theorem assembleBlob_eq (o : Options) (dti : DtInfo) (vi : VersionInfo) :
    assembleBlob o dti vi = headBytes o dti vi ++ ((blobReserves o dti).flatMap reBytes ++
      ((blobBufs dti vi).dtbuf ++ ((blobBufs dti vi).strbuf ++
        List.replicate (padLen o (plainHeader o dti vi).totalsize) 0#8))) := by
  have hlast : List.replicate sizeofReserveEntry 0#8 = [(⟨0, 0⟩ : ReserveInfo)].flatMap reBytes := rfl
  rw [blobReserves, List.flatMap_append, ← hlast, ← flattenReserveList_eq]
  simp only [assembleBlob, dataAppendData, dataAppendZeroes, List.nil_append, List.append_assoc]
  rfl

theorem length_words (ws : List ℕ) : (ws.flatMap (toBytes 4)).length = 4 * ws.length := by
  induction ws with
  | nil => rfl
  | cons w ws ih =>
    rw [List.flatMap_cons, List.length_append, length_toBytes, ih, List.length_cons]
    omega

/-- What the entries of the table have in common. -/
structure VersionInfo.WellFormed (vi : VersionInfo) : Prop where
  fullpath : vi.ftfFullpath = decide (vi.version < 16)
  varalign : vi.ftfVaralign = vi.ftfFullpath
  nameprops : vi.ftfNameprops = vi.ftfFullpath
  strtabsize : 3 ≤ vi.version → vi.ftfStrtabsize = true ∧ 36 ≤ vi.hdrSize
  structsize : 17 ≤ vi.version → vi.ftfStructsize = true ∧ 40 ≤ vi.hdrSize
  bootcpuid : if vi.ftfBootcpuid then 32 ≤ vi.hdrSize else vi.hdrSize = 28
  hdrSize : 28 ≤ vi.hdrSize ∧ vi.hdrSize ≤ 40
  version : vi.version < 256 ^ 4

theorem wellFormed_of_mem (hvi : vi ∈ versionTable) : vi.WellFormed := by
  rw [versionTable] at hvi
  simp only [List.mem_cons, List.not_mem_nil, or_false] at hvi
  obtain rfl | rfl | rfl | rfl | rfl := hvi
  all_goals constructor <;> decide

theorem length_headBytes (hvi : vi.WellFormed) : (headBytes o dti vi).length = align vi.hdrSize 8 := by
  have hle := le_align (a := 8) (by decide) vi.hdrSize
  have hbytes : (blobHeader o dti vi).bytes.length = 40 := length_words (blobHeader o dti vi).words
  have hhead : ((blobHeader o dti vi).bytes.take vi.hdrSize).length = vi.hdrSize := by
    rw [List.length_take, hbytes]
    exact Nat.min_eq_left hvi.hdrSize.2
  rw [headBytes, dataAppendAlign, dataAppendZeroes, List.length_append, List.length_replicate, hhead]
  omega

theorem hasAt_headerWord {i w : ℕ} (h : (blobHeader o dti vi).words[i]? = some w)
    (hi : 4 * i + 4 ≤ vi.hdrSize) : HasAt (assembleBlob o dti vi) (4 * i) (toBytes 4 w) := by
  have htake := (hasAt_words h).take (n := vi.hdrSize) (by rw [length_toBytes]; exact hi)
  rw [assembleBlob_eq, headBytes, dataAppendAlign, dataAppendZeroes, List.append_assoc]
  exact htake.append _

theorem headerWord_of_hasAt {i w : ℕ} (hw : w < 256 ^ 4) (h : HasAt blob (4 * i) (toBytes 4 w)) :
    headerWord blob i = .ok w := by
  have hle := h.le
  rw [length_toBytes] at hle
  rw [headerWord, if_neg (by omega), h.slice (length_toBytes 4 w), ofBytes_toBytes_of_lt hw]
  rfl

variable (o dti) in
/-- In the version without a place for it the padding of the header is read. -/
theorem hasAt_bootCpuid (hvi : vi.WellFormed) : HasAt (assembleBlob o dti vi) (4 * 7)
    (toBytes 4 (if vi.ftfBootcpuid then dti.bootCpuidPhys.toNat else 0)) := by
  have hboot := hvi.bootcpuid
  split at hboot
  · next hflag =>
    refine hasAt_headerWord ?_ hboot
    rw [if_pos hflag]
    simp [FdtHeader.words, blobHeader, plainHeader, makeFdtHeader, hflag]
  · next hflag =>
    have hhead : ((blobHeader o dti vi).bytes.take vi.hdrSize).length = 28 := by
      rw [List.length_take, show (blobHeader o dti vi).bytes.length = 40 from length_words _, hboot]
      rfl
    rw [if_neg hflag, assembleBlob_eq, headBytes, dataAppendAlign, dataAppendZeroes, hhead]
    have hpad : List.replicate (align 28 8 - 28) 0#8 = toBytes 4 0 ++ [] := rfl
    rw [hpad]
    exact HasAt.append ⟨_, [], hhead, rfl⟩ _

variable (o dti) in
theorem length_assembleBlob (hvi : vi.WellFormed) :
    (assembleBlob o dti vi).length = (blobHeader o dti vi).totalsize := by
  have hreserve : ((blobReserves o dti).flatMap reBytes).length =
      (flattenReserveList o dti.reservelist).length + sizeofReserveEntry := by
    rw [blobReserves, List.flatMap_append, List.length_append, ← flattenReserveList_eq]
    rfl
  rw [assembleBlob_eq]
  simp only [List.length_append, List.length_replicate, length_headBytes hvi, hreserve]
  simp only [blobHeader, plainHeader, makeFdtHeader]
  omega

variable (o dti) in
/-- Where the parts of the blob stand. -/
theorem hasAt_parts (hvi : vi.WellFormed) :
    HasAt (assembleBlob o dti vi) (blobHeader o dti vi).offMemRsvmap ((blobReserves o dti).flatMap reBytes) ∧
      HasAt (assembleBlob o dti vi) (blobHeader o dti vi).offDtStruct (blobBufs dti vi).dtbuf ∧
        HasAt (assembleBlob o dti vi) (blobHeader o dti vi).offDtStrings (blobBufs dti vi).strbuf := by
  have hreserve : ((blobReserves o dti).flatMap reBytes).length =
      (flattenReserveList o dti.reservelist).length + sizeofReserveEntry := by
    rw [blobReserves, List.flatMap_append, List.length_append, ← flattenReserveList_eq]
    rfl
  have hall := (hasAt_zero_self (assembleBlob o dti vi))
  nth_rewrite 2 [assembleBlob_eq] at hall
  have hrest := hall.right
  rw [Nat.zero_add, length_headBytes hvi] at hrest
  have hdt := hrest.right
  have hstr := hdt.right
  rw [hreserve] at hdt hstr
  exact ⟨hrest.left, hdt.left, hstr.left⟩

end Layout

section RoundTrip

variable {o : Options} {dti : DtInfo} {vi : VersionInfo} {blob : List Byte}

theorem check_ok {c : Prop} [Decidable c] {message : Message} (hc : ¬c) : check c message = .ok () := by
  rw [check, if_neg hc]
  rfl

/-- A blob is read whole, whatever stands behind it in the file. -/
theorem readBlob_append (rest : List Byte) (hmagic : HasAt blob 0 (toBytes 4 fdtMagic))
    (htotal : HasAt blob 4 (toBytes 4 blob.length)) (hmin : 28 ≤ blob.length) (hmax : blob.length < 2 ^ 31) :
    readBlob (blob ++ rest) = .ok blob := by
  have hlen : (blob ++ rest).length = blob.length + rest.length := List.length_append
  have hm : ofBytes (slice (blob ++ rest) 0 4) = fdtMagic := by
    rw [(hmagic.append rest).slice (length_toBytes 4 _), ofBytes_toBytes_of_lt (by decide)]
  have ht : ofBytes (slice (blob ++ rest) 4 4) = blob.length := by
    rw [(htotal.append rest).slice (length_toBytes 4 _), ofBytes_toBytes_of_lt (by omega)]
  rw [readBlob]
  simp only [hm, ht]
  rw [check_ok (by omega), check_ok (not_not.mpr rfl), check_ok (by omega), check_ok (by omega),
    check_ok (by omega), if_neg (by omega), List.take_left]
  rfl

/-- The part with the tags of the tree and the part with the strings. -/
theorem holds_assembleBlob (hvi : vi.WellFormed) (hsize : (assembleBlob o dti vi).length < 2 ^ 31)
    {strLimit : ℕ} (hlimit : (blobHeader o dti vi).offDtStrings + (blobBufs dti vi).strbuf.length ≤ strLimit) :
    Holds (assembleBlob o dti vi) ⟨(blobHeader o dti vi).offDtStruct, (assembleBlob o dti vi).length⟩
      ⟨(blobHeader o dti vi).offDtStrings, strLimit⟩ (blobBufs dti vi) := by
  obtain ⟨-, hdt, hstr⟩ := hasAt_parts o dti hvi
  have hdtLe := hdt.le
  have hstrLe := hstr.le
  exact ⟨hdt, hdtLe, hstr, hlimit, by omega, by omega⟩

/-- What a blob holds of the tree is read behind the header. -/
theorem readTree_assembleBlob (hvi : vi.WellFormed) (hsize : (assembleBlob o dti vi).length < 2 ^ 31)
    (boot : ℕ) {strLimit : ℕ} {dt : Node} (hdt : dti.dt = fillFullpaths dt .empty) (hroot : dt.deleted = false)
    (hnames : vi.version < 16 → OldNames .empty dt)
    (hlimit : (blobHeader o dti vi).offDtStrings + (blobBufs dti vi).strbuf.length ≤ strLimit) :
    readTree (assembleBlob o dti vi) vi.version boot
      ⟨(blobHeader o dti vi).offMemRsvmap, (assembleBlob o dti vi).length⟩
      ⟨(blobHeader o dti vi).offDtStruct, (assembleBlob o dti vi).length⟩
      ⟨(blobHeader o dti vi).offDtStrings, strLimit⟩ =
        .ok ⟨dtsfV1, dti.reservelist.takeWhile (·.size ≠ 0), BitVec.ofNat 32 boot, stored vi dt⟩ := by
  have h := holds_assembleBlob hvi hsize hlimit
  obtain ⟨hreserve, hplace, -⟩ := hasAt_parts o dti hvi
  have hreserveLe := hreserve.le
  have hfuel : (dti.reservelist ++ emptySlots o.reservenum).length < (assembleBlob o dti vi).length := by
    rw [length_flatMap_reBytes, blobReserves, List.length_append, List.length_singleton,
      sizeofReserveEntry] at hreserveLe
    omega
  have hreserves : ∃ q, Gives (flatReadMemReserve (assembleBlob o dti vi)
      ⟨(blobHeader o dti vi).offMemRsvmap, (assembleBlob o dti vi).length⟩ (assembleBlob o dti vi).length [])
      (blobHeader o dti vi).offMemRsvmap
      ([] ++ (dti.reservelist ++ emptySlots o.reservenum).takeWhile (·.size ≠ 0)) q :=
    gives_memReserve (dti.reservelist ++ emptySlots o.reservenum) ⟨0, 0⟩ rfl [] hreserve hreserveLe hfuel
  obtain ⟨q, hq⟩ := hreserves
  rw [List.nil_append, takeWhile_emptySlots] at hq
  have hempty : ({} : Bufs).Aligned := Nat.dvd_zero 4
  have hbufs : blobBufs dti vi = (flattenTree vi (fillFullpaths dt .empty) {}).cell fdtEnd := by
    rw [blobBufs, hdt]
  rw [hbufs] at h
  have htree := Bufs.le_cell (flattenTree vi (fillFullpaths dt .empty) {}) fdtEnd
  have hfilled : (fillFullpaths dt .empty).deleted = false := by rw [deleted_fillFullpaths, hroot]
  have hbegin := (cell_le_flattenTree vi hfilled {}).trans htree
  have hroom : Room ((flattenTree vi (fillFullpaths dt .empty) {}).cell fdtEnd)
      (({} : Bufs).cell fdtBeginNode) (assembleBlob o dti vi).length := by
    have hle := h.dt.le
    rw [Room]
    omega
  have hfirst := (reads_cell h (v := fdtBeginNode) (by decide)).reads {} hempty hbegin
  have hnode := readsTree h hvi.varalign hvi.nameprops dt .empty .empty {} _ hroot
    (fun hfull => ⟨rfl, hnames (of_decide_eq_true (hvi.fullpath ▸ hfull))⟩) hempty htree hroom
  have hlast := (reads_cell h (v := fdtEnd) (by decide)).reads _ (flattenTree_grows vi _ _ hempty).2 le_rfl
  rw [hvi.fullpath] at hnode
  rw [Gives] at hq hfirst hnode hlast
  have hbase : (⟨(blobHeader o dti vi).offDtStruct, (assembleBlob o dti vi).length⟩ : Inbuf).pos {} =
      (blobHeader o dti vi).offDtStruct := rfl
  rw [hbase] at hfirst
  rw [readTree]
  simp only [hq, bind, Except.bind, hfirst, hnode, hlast, check_ok (not_not.mpr rfl)]
  rfl

theorem headerWord_assembleBlob {i w : ℕ} (hw : (blobHeader o dti vi).words[i]? = some w)
    (hi : 4 * i + 4 ≤ vi.hdrSize) (hlt : w < 256 ^ 4) : headerWord (assembleBlob o dti vi) i = .ok w :=
  headerWord_of_hasAt hlt (hasAt_headerWord hw hi)

variable (o dti) in
theorem initStrbuf_assembleBlob (hvi : vi.WellFormed) (hsize : (assembleBlob o dti vi).length < 2 ^ 31) :
    ∃ strLimit, initStrbuf (assembleBlob o dti vi) vi.version (blobHeader o dti vi).offDtStrings =
        .ok ⟨(blobHeader o dti vi).offDtStrings, strLimit⟩ ∧
      (blobHeader o dti vi).offDtStrings + (blobBufs dti vi).strbuf.length ≤ strLimit := by
  obtain ⟨-, -, hstr⟩ := hasAt_parts o dti hvi
  have hle := hstr.le
  by_cases hversion : 3 ≤ vi.version
  · obtain ⟨hflag, hhdr⟩ := hvi.strtabsize hversion
    have hword : headerWord (assembleBlob o dti vi) 8 = .ok (blobBufs dti vi).strbuf.length := by
      refine headerWord_assembleBlob ?_ hhdr (by omega)
      simp [FdtHeader.words, blobHeader, plainHeader, makeFdtHeader, hflag]
    refine ⟨_, ?_, le_rfl⟩
    rw [initStrbuf, if_pos hversion]
    simp only [hword, bind, Except.bind]
    rw [check_ok (by omega)]
    rfl
  · refine ⟨_, ?_, hle⟩
    rw [initStrbuf, if_neg hversion]
    rfl

variable (o dti) in
theorem checkStructsize_assembleBlob (hvi : vi.WellFormed) (hsize : (assembleBlob o dti vi).length < 2 ^ 31) :
    checkStructsize (assembleBlob o dti vi) vi.version (blobHeader o dti vi).offDtStruct = .ok () := by
  obtain ⟨-, hdt, -⟩ := hasAt_parts o dti hvi
  have hle := hdt.le
  by_cases hversion : 17 ≤ vi.version
  · obtain ⟨hflag, hhdr⟩ := hvi.structsize hversion
    have hword : headerWord (assembleBlob o dti vi) 9 = .ok (blobBufs dti vi).dtbuf.length := by
      refine headerWord_assembleBlob ?_ hhdr (by omega)
      simp [FdtHeader.words, blobHeader, plainHeader, makeFdtHeader, hflag]
    rw [checkStructsize, if_pos hversion]
    simp only [hword, bind, Except.bind]
    exact check_ok (by omega)
  · rw [checkStructsize, if_neg hversion]
    rfl

/-- The blob of a tree, whatever its version, is read as what it holds of the tree. -/
theorem dtFromBlob_assembleBlob {dt : Node} (rest : List Byte) (hvi : vi ∈ versionTable)
    (hdt : dti.dt = fillFullpaths dt .empty) (hroot : dt.deleted = false)
    (hnames : vi.version < 16 → OldNames .empty dt) (hsize : (assembleBlob o dti vi).length < 2 ^ 31) :
    dtFromBlob (assembleBlob o dti vi ++ rest) =
      .ok ⟨dtsfV1, dti.reservelist.takeWhile (·.size ≠ 0),
        if vi.ftfBootcpuid then dti.bootCpuidPhys else 0, stored vi dt⟩ := by
  have hvi := wellFormed_of_mem hvi
  obtain ⟨hreserve, hplace, hstr⟩ := hasAt_parts o dti hvi
  have hreserveLe := hreserve.le
  have hplaceLe := hplace.le
  have hstrLe := hstr.le
  have hreservePos : 0 < ((blobReserves o dti).flatMap reBytes).length := by
    rw [length_flatMap_reBytes, blobReserves, List.length_append, List.length_singleton]
    exact Nat.mul_pos (by decide) (Nat.succ_pos _)
  have hplacePos : 0 < (blobBufs dti vi).dtbuf.length := by
    rw [blobBufs, Bufs.length_cell]
    omega
  have htotal := length_assembleBlob o dti hvi
  have hhdr := hvi.hdrSize
  have hread : readBlob (assembleBlob o dti vi ++ rest) = .ok (assembleBlob o dti vi) := by
    refine readBlob_append rest (hasAt_headerWord (i := 0) rfl (by omega)) ?_ ?_ hsize
    · rw [htotal]
      exact hasAt_headerWord (i := 1) rfl (by omega)
    · rw [assembleBlob_eq, List.length_append, length_headBytes hvi]
      have hle := le_align (a := 8) (by decide) vi.hdrSize
      omega
  have hoffDt : headerWord (assembleBlob o dti vi) 2 = .ok (blobHeader o dti vi).offDtStruct :=
    headerWord_assembleBlob rfl (by omega) (by omega)
  have hoffStr : headerWord (assembleBlob o dti vi) 3 = .ok (blobHeader o dti vi).offDtStrings :=
    headerWord_assembleBlob rfl (by omega) (by omega)
  have hoffRsv : headerWord (assembleBlob o dti vi) 4 = .ok (blobHeader o dti vi).offMemRsvmap :=
    headerWord_assembleBlob rfl (by omega) (by omega)
  have hversion : headerWord (assembleBlob o dti vi) 5 = .ok vi.version :=
    headerWord_assembleBlob rfl (by omega) hvi.version
  have hbootLt : (if vi.ftfBootcpuid then dti.bootCpuidPhys.toNat else 0) < 256 ^ 4 := by
    have hlt := dti.bootCpuidPhys.isLt
    split <;> omega
  have hboot := headerWord_of_hasAt hbootLt (hasAt_bootCpuid o dti hvi)
  have hbootWord : BitVec.ofNat 32 (if vi.ftfBootcpuid then dti.bootCpuidPhys.toNat else 0) =
      if vi.ftfBootcpuid then dti.bootCpuidPhys else 0 := by
    split
    · exact BitVec.ofNat_toNat _ _ |>.trans (BitVec.setWidth_eq _)
    · rfl
  obtain ⟨strLimit, hstrbuf, hlimit⟩ := initStrbuf_assembleBlob o dti hvi hsize
  have hstruct := checkStructsize_assembleBlob o dti hvi hsize
  have htree := readTree_assembleBlob hvi hsize
    (if vi.ftfBootcpuid then dti.bootCpuidPhys.toNat else 0) hdt hroot hnames hlimit
  rw [dtFromBlob]
  simp only [hread, hoffDt, hoffStr, hoffRsv, hversion, hboot, bind, Except.bind]
  rw [check_ok (by omega), check_ok (by omega), check_ok (by omega)]
  simp only [hstrbuf, hstruct, htree, hbootWord]

end RoundTrip

section Rewriting

variable {vi : VersionInfo}

theorem flattenProps_append (ps qs : List Property) (s : Bufs) :
    flattenProps vi (ps ++ qs) s = flattenProps vi qs (flattenProps vi ps s) := by
  induction ps generalizing s with
  | nil => rfl
  | cons p ps ih => rw [List.cons_append, flattenProps, ih, flattenProps]

theorem flattenProps_visibleProps (props : List Property) (s : Bufs) :
    flattenProps vi (visibleProps props) s = flattenProps vi props s := by
  induction props generalizing s with
  | nil => rfl
  | cons p props ih =>
    rw [visibleProps_cons, flattenProps]
    split
    · exact ih s
    · rw [flattenProps, ih]
      rfl

theorem any_visibleProps (props : List Property) (name : CString) :
    (visibleProps props).any (fun p => !p.deleted && decide (p.name = name)) =
      props.any fun p => !p.deleted && decide (p.name = name) := by
  induction props with
  | nil => rfl
  | cons p props ih =>
    rw [visibleProps_cons, List.any_cons]
    split
    · next hdel => rw [ih, hdel, Bool.not_true, Bool.false_and, Bool.false_or]
    · next hdel =>
      rw [List.any_cons, ih, Bool.eq_false_of_not_eq_true hdel]
      rfl

/-- The node as it is read back. -/
def storedInfo (vi : VersionInfo) (info : NodeInfo) : NodeInfo :=
  { name := info.name, proplist := storedProps vi info }

theorem flattenAllProps_stored (info : NodeInfo) (pre : CString)
    (hunit : vi.ftfNameprops = true → unitPosition info.name = 0 → info.name.chars = []) (s : Bufs) :
    flattenAllProps vi ((storedInfo vi info).fill pre) s = flattenAllProps vi (info.fill pre) s := by
  rw [flattenAllProps, flattenAllProps]
  by_cases hadd : (vi.ftfNameprops &&
      !(info.proplist.any fun p => !p.deleted && decide (p.name = nameString))) = true
  · have hstored : storedProps vi info = visibleProps info.proplist ++
        [buildProperty nameString { val := info.name.chars.takeWhile (· ≠ 0x40#8) ++ [0#8] }] := by
      rw [storedProps, if_pos hadd]
    have hseen : ((storedProps vi info).any fun p => !p.deleted && decide (p.name = nameString)) = true := by
      rw [hstored, List.any_append]
      simp [buildProperty]
    have hname : ∀ t, flattenName vi ((storedInfo vi info).fill pre) t = t := by
      intro t
      rw [flattenName]
      simp [NodeInfo.fill, storedInfo, hseen]
    have hunit := hunit (Bool.and_eq_true_iff.mp hadd).1
    have hvalue : (fun t : Bufs => t.string info.name (unitPosition info.name)) =
        fun t => t.data (info.name.chars.takeWhile (· ≠ 0x40#8) ++ [0#8]) :=
      funext (value_nameProp hunit)
    have hadded : flattenName vi (info.fill pre) = flattenProp vi nameString (unitPosition info.name + 1)
        (·.string info.name (unitPosition info.name)) := by
      funext t
      exact if_pos hadd
    rw [hname, hadded, hvalue, ← length_nameProp]
    rw [show ((storedInfo vi info).fill pre).proplist = storedProps vi info from rfl, hstored,
      flattenProps_append, flattenProps_visibleProps]
    rfl
  · have hstored : storedProps vi info = visibleProps info.proplist := by
      rw [storedProps, if_neg hadd, List.append_nil]
    have hsame : ∀ t, flattenName vi (info.fill pre) t = t := fun t => if_neg hadd
    have hname : ∀ t, flattenName vi ((storedInfo vi info).fill pre) t = t := by
      intro t
      rw [← any_visibleProps, ← hstored] at hadd
      exact if_neg hadd
    rw [hname, hsame, show ((storedInfo vi info).fill pre).proplist = storedProps vi info from rfl, hstored,
      flattenProps_visibleProps]
    rfl

theorem flattenChildren_stored (children : List Node) (path : CString)
    (ih : ∀ c ∈ children, c.deleted = false → ∀ s,
      flattenTree vi (fillFullpaths (stored vi c) path) s = flattenTree vi (fillFullpaths c path) s) (s : Bufs) :
    flattenChildren vi (fillChildren (storedChildren vi children) path) s =
      flattenChildren vi (fillChildren children path) s := by
  induction children generalizing s with
  | nil => rfl
  | cons c cs ihcs =>
    have htail := ihcs fun d hd => ih d (List.mem_cons_of_mem c hd)
    rw [storedChildren]
    cases hdel : c.deleted with
    | true =>
      rw [if_pos rfl, htail, fillChildren, flattenChildren, hdel, if_pos rfl, if_pos hdel]
    | false =>
      have hstored : (stored vi c).deleted = false := by
        cases c
        rw [stored]
        rfl
      rw [if_neg Bool.false_ne_true, fillChildren, flattenChildren, fillChildren, flattenChildren]
      rw [hstored, hdel]
      simp only [Bool.false_eq_true, if_false, deleted_fillFullpaths, hstored, hdel]
      rw [ih c List.mem_cons_self hdel s, htail]

theorem oldNames_of_mem {path : CString} {children : List Node} (h : OldChildren path children) {c : Node}
    (hc : c ∈ children) (hdel : c.deleted = false) : OldNames path c := by
  induction children with
  | nil => cases hc
  | cons d ds ih =>
    obtain rfl | hc := List.mem_cons.mp hc
    · exact h.1 hdel
    · exact ih h.2 hc

/-- What is read back of a tree is written as the tree is. -/
theorem flattenTree_stored (hvi : vi.WellFormed) (n : Node) (pre : CString) (hdel : n.deleted = false)
    (hnames : vi.ftfFullpath = true → OldNames pre n) (s : Bufs) :
    flattenTree vi (fillFullpaths (stored vi n) pre) s = flattenTree vi (fillFullpaths n pre) s := by
  induction n generalizing pre s with
  | mk info children ih =>
    have hunit : vi.ftfNameprops = true → unitPosition info.name = 0 → info.name.chars = [] :=
      fun h => (hnames (hvi.nameprops ▸ h)).2.1
    have hbegin : flattenBegin vi ((storedInfo vi info).fill pre) = flattenBegin vi (info.fill pre) := rfl
    have hchildren := flattenChildren_stored children (joinPath pre info.name) fun c hc hcdel =>
      ih c hc _ hcdel fun hfull => oldNames_of_mem (hnames hfull).2.2 hc hcdel
    rw [stored, buildNode, fillFullpaths_mk, fillFullpaths_mk, flattenTree_eq _ _ rfl,
      flattenTree_eq (info.fill pre) _ hdel, flattenHead, flattenHead]
    rw [show ({ name := info.name, proplist := storedProps vi info } : NodeInfo) = storedInfo vi info from rfl,
      hbegin, flattenAllProps_stored info pre hunit]
    exact congrArg (Bufs.cell · fdtEndNode) (hchildren _)

end Rewriting

section Versions

variable {o : Options} {dti : DtInfo} {blob : List Byte} {version : ℕ} {vi : VersionInfo}

theorem findVersion_spec (h : findVersion version = some vi) : vi ∈ versionTable ∧ vi.version = version := by
  have hfold : ∀ (rows : List VersionInfo) (found : Option VersionInfo),
      rows.foldl (fun vi row => if row.version = version then some row else vi) found = some vi →
        found = some vi ∨ vi ∈ rows ∧ vi.version = version := by
    intro rows
    induction rows with
    | nil => exact fun found h => .inl h
    | cons row rows ih =>
      intro found h
      obtain hrow | ⟨hmem, hversion⟩ := ih _ h
      · change (if row.version = version then some row else found) = some vi at hrow
        split at hrow
        · next hversion =>
          obtain rfl := Option.some.inj hrow
          exact .inr ⟨List.mem_cons_self, hversion⟩
        · exact .inl hrow
      · exact .inr ⟨List.mem_cons_of_mem row hmem, hversion⟩
  exact (hfold versionTable none h).resolve_left nofun

/-- The tree as `dtc` hands it to the writer. -/
def DtInfo.filled (dti : DtInfo) : DtInfo := { dti with dt := fillFullpaths dti.dt .empty }

/-- What is written in any version is read back, without what is deleted and the labels. The
reservations end with one of size 0. -/
theorem blob_round_trip (rest : List Byte) (hblob : dtToBlob o dti.filled version = some blob)
    (hroot : dti.dt.deleted = false) (hnames : version < 16 → OldNames .empty dti.dt)
    (hsize : blob.length < 2 ^ 31) :
    ∃ vi ∈ versionTable, vi.version = version ∧ dtFromBlob (blob ++ rest) =
      .ok ⟨dtsfV1, dti.reservelist.takeWhile (·.size ≠ 0),
        if vi.ftfBootcpuid then dti.bootCpuidPhys else 0, stored vi dti.dt⟩ := by
  obtain ⟨vi, hfind, rfl⟩ := Option.map_eq_some_iff.mp hblob
  obtain ⟨hvi, rfl⟩ := findVersion_spec hfind
  exact ⟨vi, hvi, rfl, dtFromBlob_assembleBlob rest hvi rfl hroot hnames hsize⟩

/-- A blob that is read and written again in its version is the same, byte for byte. -/
theorem blob_rewritten (rest : List Byte) (hblob : dtToBlob o dti.filled version = some blob)
    (hroot : dti.dt.deleted = false) (hnames : version < 16 → OldNames .empty dti.dt)
    (hreserve : ∀ re ∈ dti.reservelist, re.size ≠ 0) (hsize : blob.length < 2 ^ 31) :
    ∃ dti', dtFromBlob (blob ++ rest) = .ok dti' ∧ dtToBlob o dti'.filled version = some blob := by
  obtain ⟨vi, hfind, rfl⟩ := Option.map_eq_some_iff.mp hblob
  obtain ⟨hvi, rfl⟩ := findVersion_spec hfind
  refine ⟨_, dtFromBlob_assembleBlob rest hvi rfl hroot hnames hsize, ?_⟩
  have hsame : dti.reservelist.takeWhile (·.size ≠ 0) = dti.reservelist := by
    rw [List.takeWhile_eq_self_iff]
    exact fun re hre => decide_eq_true (hreserve re hre)
  have hflat := flattenTree_stored (wellFormed_of_mem hvi) dti.dt .empty hroot
    (fun hfull => hnames (of_decide_eq_true ((wellFormed_of_mem hvi).fullpath ▸ hfull))) {}
  rw [dtToBlob, hfind, Option.map_some]
  refine congrArg some ?_
  simp only [assembleBlob, DtInfo.filled, hflat, hsame]
  cases hboot : vi.ftfBootcpuid <;> simp [makeFdtHeader, hboot]

/-- `/ { a = [01 02 03]; b@1 { }; }` with a reservation. -/
def sampleTree : DtInfo where
  dtsflags := dtsfV1
  reservelist := [⟨4096, 16⟩]
  bootCpuidPhys := 1
  dt := .mk { proplist := [{ name := ⟨[0x61#8], by decide⟩, val := { val := [1#8, 2#8, 3#8] } }] }
    [.mk { name := ⟨[0x62#8, 0x40#8, 0x31#8], by decide⟩ } []]

theorem oldNames_sampleTree : OldNames .empty sampleTree.dt :=
  ⟨.inr (by decide), fun _ => rfl, fun _ => ⟨.inl (by decide), nofun, trivial⟩, trivial⟩

theorem dtToBlob_sampleTree : ∃ blob, dtToBlob {} sampleTree.filled 3 = some blob ∧ blob.length < 2 ^ 31 :=
  ⟨_, rfl, by decide +kernel⟩

theorem blob_round_trip_sample : ∃ vi ∈ versionTable, vi.version = 3 ∧
    (dtToBlob {} sampleTree.filled 3).map (fun blob => dtFromBlob (blob ++ [])) =
      some (.ok ⟨dtsfV1, [⟨4096, 16⟩], if vi.ftfBootcpuid then 1 else 0, stored vi sampleTree.dt⟩) := by
  obtain ⟨blob, hblob, hsize⟩ := dtToBlob_sampleTree
  obtain ⟨vi, hvi, hversion, hread⟩ := blob_round_trip [] hblob rfl (fun _ => oldNames_sampleTree) hsize
  exact ⟨vi, hvi, hversion, hblob ▸ congrArg some hread⟩

theorem blob_rewritten_sample : ∃ dti' blob, dtToBlob {} sampleTree.filled 3 = some blob ∧
    dtFromBlob (blob ++ []) = .ok dti' ∧ dtToBlob {} dti'.filled 3 = some blob := by
  obtain ⟨blob, hblob, hsize⟩ := dtToBlob_sampleTree
  obtain ⟨dti', hread, hwrite⟩ := blob_rewritten [] hblob rfl (fun _ => oldNames_sampleTree) (by decide) hsize
  exact ⟨dti', blob, hblob, hread, hwrite⟩

end Versions

end PynqPrio.Dtc
