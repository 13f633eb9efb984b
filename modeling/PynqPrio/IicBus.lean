import PynqPrio.DriverLayers
import PynqPrio.IicDriver

/-!
# The register accessors on the bus

The accessors of `i2c-byu.c` choose the byte address and the byte order of an access by
the `endianness` field. A device places the bytes of its registers on the bus in its own
byte order. Where the two agree, the accessors reach the registers that the driver means.
-/
namespace PynqPrio.Iic
open Programs Programs.Driver Programs.Prog

/-- The byte of significance `k`. -/
def byteOf {w : ℕ} (v : BitVec w) (k : ℕ) : BitVec 8 := v.extractLsb' (8 * k) 8

/-- The `n` low bytes, least significant first. -/
def toBytes {w : ℕ} (v : BitVec w) (n : ℕ) : List (BitVec 8) := (List.range n).map (byteOf v)

/-- The value of bytes of which the first is the least significant. -/
def ofBytes : List (BitVec 8) → BitVec 32
  | [] => 0
  | b :: bs => b.setWidth 32 ||| (ofBytes bs <<< 8)

/-- Bytes at ascending addresses of the bus; `indeterminate` asks for the value of a
variable that has not been initialized. -/
inductive BusOp where
  | write (addr : ℕ) (bytes : List (BitVec 8))
  | read (addr n : ℕ)
  | indeterminate

abbrev BusOp.Res : BusOp → Type
  | .write .. => Unit
  | .read .. => List (BitVec 8)
  | .indeterminate => BitVec 32

abbrev Bus := Driver XiicI2c Event BusOp.Res

def busWrite (addr : ℕ) (bytes : List (BitVec 8)) : Bus Unit := port (P := BusOp) (.write addr bytes)
def busRead (addr n : ℕ) : Bus (List (BitVec 8)) := port (P := BusOp) (.read addr n)
def indeterminate : Bus (BitVec 32) := port (P := BusOp) .indeterminate

/-! The access functions of the kernel. -/
def iowrite8 (value : BitVec 8) (addr : ℕ) : Bus Unit := busWrite addr (toBytes value 1)
def iowrite16 (value : BitVec 16) (addr : ℕ) : Bus Unit := busWrite addr (toBytes value 2)
def iowrite16be (value : BitVec 16) (addr : ℕ) : Bus Unit := busWrite addr (toBytes value 2).reverse
def iowrite32 (value : BitVec 32) (addr : ℕ) : Bus Unit := busWrite addr (toBytes value 4)
def iowrite32be (value : BitVec 32) (addr : ℕ) : Bus Unit := busWrite addr (toBytes value 4).reverse

def ioread8 (addr : ℕ) : Bus (BitVec 8) := do
  let bytes ← busRead addr 1
  return (ofBytes bytes).setWidth 8

def ioread32 (addr : ℕ) : Bus (BitVec 32) := do
  let bytes ← busRead addr 4
  return ofBytes bytes

def ioread32be (addr : ℕ) : Bus (BitVec 32) := do
  let bytes ← busRead addr 4
  return ofBytes bytes.reverse

namespace Bus

def xiicSetreg8 (reg : Reg) (value : BitVec 8) : Bus Unit := do
  let d ← get
  if d.endianness = .little then iowrite8 value reg.offset
  else iowrite8 value (reg.offset + 3)

def xiicGetreg8 (reg : Reg) : Bus (BitVec 8) := do
  let d ← get
  if d.endianness = .little then ioread8 reg.offset
  else ioread8 (reg.offset + 3)

def xiicSetreg16 (reg : Reg) (value : BitVec 16) : Bus Unit := do
  let d ← get
  if d.endianness = .little then iowrite16 value reg.offset
  else iowrite16be value (reg.offset + 2)

def xiicSetreg32 (reg : Reg) (value : BitVec 32) : Bus Unit := do
  let d ← get
  if d.endianness = .little then iowrite32 value reg.offset
  else iowrite32be value reg.offset

/-- The little-endian branch of `xiic_getreg32` is `littleRead`. -/
def xiicGetreg32 (littleRead : ℕ → Bus (BitVec 32)) (reg : Reg) : Bus (BitVec 32) := do
  let d ← get
  if d.endianness = .little then littleRead reg.offset
  else ioread32be reg.offset

/-- In `i2c-byu.c` the branch is empty: the read is commented out, and the uninitialized
`ret` is returned. -/
def byuLittleRead (_addr : ℕ) : Bus (BitVec 32) := indeterminate

/-- In `i2c-xiic.c` the branch reads the register. -/
def xiicLittleRead (addr : ℕ) : Bus (BitVec 32) := ioread32 addr

/-- The accessors of the driver. -/
def access (littleRead : ℕ → Bus (BitVec 32)) : (p : Port) → Bus (Port.Res p)
  | .getreg8 reg => xiicGetreg8 reg
  | .getreg32 reg => xiicGetreg32 littleRead reg
  | .setreg8 reg value => xiicSetreg8 reg value
  | .setreg16 reg value => xiicSetreg16 reg value
  | .setreg32 reg value => xiicSetreg32 reg value

end Bus

section Device

/-- An access to a logical register; `lanes` selects its bytes by significance. -/
inductive RegOp where
  | write (reg : ℕ) (lanes : BitVec 4) (value : BitVec 32)
  | read (reg : ℕ) (lanes : BitVec 4)

abbrev RegOp.Res : RegOp → Type
  | .write .. => Unit
  | .read .. => BitVec 32

/-- The significance of the byte at offset `i` of a register. -/
def significance : XiicEndian → ℕ → ℕ
  | .little, i => i
  | .big, i => 3 - i

/-- The lanes that `n` bytes from `addr` on select. -/
def lanes (e : XiicEndian) : ℕ → ℕ → BitVec 4
  | _, 0 => 0
  | addr, n + 1 => (1#4 <<< significance e (addr % 4)) ||| lanes e (addr + 1) n

/-- The register value with the bytes from `addr` on in their lanes. -/
def assemble (e : XiicEndian) : ℕ → List (BitVec 8) → BitVec 32
  | _, [] => 0
  | addr, b :: bs => (b.setWidth 32 <<< (8 * significance e (addr % 4))) ||| assemble e (addr + 1) bs

/-- The `n` bytes of a register value from `addr` on. -/
def bytesAt (e : XiicEndian) (v : BitVec 32) : ℕ → ℕ → List (BitVec 8)
  | _, 0 => []
  | addr, n + 1 => byteOf v (significance e (addr % 4)) :: bytesAt e v (addr + 1) n

variable {δ : Type}

/-- A device with logical registers on the bus, in the byte order `e`. An uninitialized
variable has one of the values `undef`. -/
def onBus (e : XiicEndian) (undef : BitVec 32 → Prop) (dev : Machine RegOp RegOp.Res δ) :
    Machine BusOp BusOp.Res δ
  | s, .write addr bytes, _, t =>
    dev s (.write (addr / 4 * 4) (lanes e addr bytes.length) (assemble e addr bytes)) () t
  | s, .read addr n, x, t =>
    ∃ v : BitVec 32, dev s (.read (addr / 4 * 4) (lanes e addr n)) v t ∧ x = bytesAt e v addr n
  | s, .indeterminate, x, t => undef x ∧ t = s

/-- The logical registers as the ports of the driver: an access to the low byte or the low
doublet leaves the other lanes alone. -/
def registers (dev : Machine RegOp RegOp.Res δ) : Machine Port Port.Res δ
  | s, .getreg8 reg, x, t =>
    ∃ v : BitVec 32, dev s (.read reg.offset 0b0001) v t ∧ x = v.setWidth 8
  | s, .getreg32 reg, x, t => dev s (.read reg.offset 0b1111) x t
  | s, .setreg8 reg value, _, t => dev s (.write reg.offset 0b0001 (value.setWidth 32)) () t
  | s, .setreg16 reg value, _, t => dev s (.write reg.offset 0b0011 (value.setWidth 32)) () t
  | s, .setreg32 reg value, _, t => dev s (.write reg.offset 0b1111 value) () t

end Device

section Lanes

variable {e : XiicEndian} {a : ℕ}

/-- Where an accessor of `n` bytes begins. -/
def start (e : XiicEndian) (a n : ℕ) : ℕ :=
  match e with
  | .little => a
  | .big => a + (4 - n)

/-- The order in which an accessor puts its bytes on the bus. -/
def ordered (e : XiicEndian) (bytes : List (BitVec 8)) : List (BitVec 8) :=
  match e with
  | .little => bytes
  | .big => bytes.reverse

theorem start_div (ha : a % 4 = 0) {n : ℕ} (hn : 0 < n) : start e a n / 4 * 4 = a := by
  cases e <;> simp only [start] <;> omega

theorem lanes_one (ha : a % 4 = 0) : lanes e (start e a 1) 1 = 0b0001 := by
  cases e <;> simp [lanes, start, significance, Nat.add_mod, ha]

theorem lanes_two (ha : a % 4 = 0) : lanes e (start e a 2) 2 = 0b0011 := by
  cases e <;> simp [lanes, start, significance, Nat.add_mod, ha]

theorem lanes_four (ha : a % 4 = 0) : lanes e (start e a 4) 4 = 0b1111 := by
  cases e <;> simp [lanes, start, significance, Nat.add_mod, ha]

theorem assemble_one (ha : a % 4 = 0) (v : BitVec 8) :
    assemble e (start e a 1) (toBytes v 1) = v.setWidth 32 := by
  cases e <;> simp [assemble, start, significance, Nat.add_mod, ha, toBytes, byteOf]

theorem assemble_two (ha : a % 4 = 0) (v : BitVec 16) :
    assemble e (start e a 2) (ordered e (toBytes v 2)) = v.setWidth 32 := by
  ext i hi
  cases e <;> simp [assemble, start, ordered, significance, Nat.add_mod, ha, toBytes,
    List.range_succ, byteOf] <;> grind

theorem assemble_four (ha : a % 4 = 0) (v : BitVec 32) :
    assemble e (start e a 4) (ordered e (toBytes v 4)) = v := by
  ext i hi
  cases e <;> simp [assemble, start, ordered, significance, Nat.add_mod, ha, toBytes,
    List.range_succ, byteOf] <;> grind

theorem ofBytes_one (ha : a % 4 = 0) (v : BitVec 32) :
    (ofBytes (bytesAt e v (start e a 1) 1)).setWidth 8 = v.setWidth 8 := by
  ext i hi
  cases e <;> simp [ofBytes, bytesAt, start, significance, Nat.add_mod, ha, byteOf]

theorem ofBytes_four (ha : a % 4 = 0) (v : BitVec 32) :
    ofBytes (ordered e (bytesAt e v (start e a 4) 4)) = v := by
  ext i hi
  cases e <;> simp [ofBytes, bytesAt, start, ordered, significance, Nat.add_mod, ha, byteOf]
    <;> grind

end Lanes

theorem Reg.offset_mod (reg : Reg) : reg.offset % 4 = 0 := by
  cases reg <;> rfl

section Accessors

variable {δ : Type} {e : XiicEndian} {undef : BitVec 32 → Prop} {dev : Machine RegOp RegOp.Res δ}
  {littleRead : ℕ → Bus (BitVec 32)} {s t : Sys δ}

/-- The little-endian branch of `xiic_getreg32` reads the register. -/
def ReadsRegister (undef : BitVec 32 → Prop) (dev : Machine RegOp RegOp.Res δ)
    (littleRead : ℕ → Bus (BitVec 32)) : Prop :=
  ∀ a, a % 4 = 0 → ∀ (s t : Sys δ) x,
    Exec (withMemory (onBus .little undef dev)) (littleRead a) s x t ↔
      ∃ d, dev s.dev (.read a 0b1111) x d ∧ t = s.withDev d

theorem exec_busWrite {a n : ℕ} (ha : a % 4 = 0) (hn : 0 < n) {bytes : List (BitVec 8)}
    (hbytes : bytes.length = n) {l : BitVec 4} (hl : lanes e (start e a n) n = l) {v : BitVec 32}
    (hv : assemble e (start e a n) bytes = v) (x : Unit) :
    Exec (withMemory (onBus e undef dev)) (busWrite (start e a n) bytes) s x t ↔
      ∃ d, dev s.dev (.write a l v) () d ∧ t = s.withDev d := by
  subst hl hv
  refine (exec_port (R := BusOp.Res) (.write (start e a n) bytes) x).trans ?_
  simp only [onBus]
  rw [start_div ha hn, hbytes]

/-- A read of `n` bytes that are put together by `f`. -/
theorem exec_busRead {a n : ℕ} (ha : a % 4 = 0) (hn : 0 < n) {l : BitVec 4}
    (hl : lanes e (start e a n) n = l) {β : Type} {f : List (BitVec 8) → β} {g : BitVec 32 → β}
    (hf : ∀ v, f (bytesAt e v (start e a n) n) = g v) (x : β) :
    Exec (withMemory (onBus e undef dev)) (do
        let bytes ← busRead (start e a n) n
        return f bytes) s x t ↔
      ∃ d, (∃ v : BitVec 32, dev s.dev (.read a l) v d ∧ x = g v) ∧ t = s.withDev d := by
  subst hl
  simp only [busRead, exec_bind_iff, exec_port, exec_pure]
  constructor
  · rintro ⟨bytes, u, ⟨d, ⟨v, hv, rfl⟩, rfl⟩, rfl, rfl⟩
    rw [start_div ha hn] at hv
    exact ⟨d, ⟨v, hv, hf v⟩, rfl⟩
  · rintro ⟨d, ⟨v, hv, rfl⟩, rfl⟩
    refine ⟨_, _, ⟨d, ⟨v, ?_, rfl⟩, rfl⟩, (hf v).symm, rfl⟩
    rwa [start_div ha hn]

theorem exec_ioread32 : ReadsRegister undef dev Bus.xiicLittleRead := by
  intro a ha s t x
  refine (exec_busRead (e := .little) ha (by decide) (lanes_four ha) (f := ofBytes) (g := id)
    (fun v => ofBytes_four (e := .little) ha v) x).trans (exists_congr fun d => ?_)
  simp

/-- Where the driver has the byte order of the device, every accessor accesses the logical
register that it names. -/
theorem exec_access (hs : s.mem.endianness = e)
    (hread : e = .little → ReadsRegister undef dev littleRead) (p : Port) (x : Port.Res p) :
    Exec (withMemory (onBus e undef dev)) (Bus.access littleRead p) s x t ↔
      ∃ d, registers dev s.dev p x d ∧ t = s.withDev d := by
  have hlength : ∀ {w : ℕ} (v : BitVec w) (n : ℕ), (ordered e (toBytes v n)).length = n := by
    intro w v n
    cases e <;> simp [ordered, toBytes]
  cases p with
  | setreg8 reg v =>
    have h : Exec (withMemory (onBus e undef dev)) (busWrite (start e reg.offset 1) (toBytes v 1))
        s x t ↔ _ := exec_busWrite reg.offset_mod (by decide) (by simp [toBytes])
      (lanes_one reg.offset_mod) (assemble_one reg.offset_mod v) x
    refine Iff.trans ?_ h
    cases e <;> simp [Bus.access, Bus.xiicSetreg8, iowrite8, start, hs]
  | setreg16 reg v =>
    have h : Exec (withMemory (onBus e undef dev)) (busWrite (start e reg.offset 2)
        (ordered e (toBytes v 2))) s x t ↔ _ := exec_busWrite reg.offset_mod (by decide)
      (hlength v 2) (lanes_two reg.offset_mod) (assemble_two reg.offset_mod v) x
    refine Iff.trans ?_ h
    cases e <;> simp [Bus.access, Bus.xiicSetreg16, iowrite16, iowrite16be, start, ordered, hs]
  | setreg32 reg v =>
    have h : Exec (withMemory (onBus e undef dev)) (busWrite (start e reg.offset 4)
        (ordered e (toBytes v 4))) s x t ↔ _ := exec_busWrite reg.offset_mod (by decide)
      (hlength v 4) (lanes_four reg.offset_mod) (assemble_four reg.offset_mod v) x
    refine Iff.trans ?_ h
    cases e <;> simp [Bus.access, Bus.xiicSetreg32, iowrite32, iowrite32be, start, ordered, hs]
  | getreg8 reg =>
    have h : Exec (withMemory (onBus e undef dev)) (do
        let bytes ← busRead (start e reg.offset 1) 1
        return (ofBytes bytes).setWidth 8) s x t ↔ _ :=
      exec_busRead reg.offset_mod (by decide) (lanes_one reg.offset_mod)
        (ofBytes_one reg.offset_mod) x
    refine Iff.trans ?_ h
    cases e <;> simp [Bus.access, Bus.xiicGetreg8, ioread8, start, hs]
  | getreg32 reg =>
    cases e with
    | little =>
      refine Iff.trans ?_ (hread rfl reg.offset reg.offset_mod s t x)
      simp [Bus.access, Bus.xiicGetreg32, hs]
    | big =>
      have h : Exec (withMemory (onBus .big undef dev)) (do
          let bytes ← busRead (start .big reg.offset 4) 4
          return ofBytes bytes.reverse) s x t ↔ _ :=
        exec_busRead (g := id) reg.offset_mod (by decide) (lanes_four reg.offset_mod)
          (ofBytes_four (e := .big) reg.offset_mod) x
      refine Iff.trans ?_ (h.trans (exists_congr fun d => ?_))
      · simp [Bus.access, Bus.xiicGetreg32, ioread32be, start, hs]
      · simp [registers]

end Accessors

end PynqPrio.Iic
