import Xv6.Lib.Ring
import Xv6.Lib.Run

/-!
# The virtio disk driver

`kernel/virtio_disk.c` from `alloc_desc` on, with any number of processes in `virtio_disk_rw`, the
interrupt handler, and the device.

The driver works under `vdisk_lock`, which `sleep` gives up. What a process does between two sleeps
is one event; the device does not look at descriptors and places of the ring that have not been
published, so it cannot tell. The interrupt handler looks at what the device writes, so each round
of its loop is an event of its own, and the device may do something in between.

The device takes the heads that have been published in the order of the ring, and completes those
that it has taken in any order. It finds the byte for the status by following the descriptors.

Callers of `virtio_disk_rw` hold the sleep lock of the buffer; in the model they hold it for the
time of the call. Data that is transferred is left out.
-/

namespace Xv6.Virtio

open Function (update)

/-- The number of descriptors. -/
abbrev NUM : ℕ := 8

/-- The panics of the code that is modelled here. -/
inductive Panic
  /-- `free_desc 1` -/
  | freeDesc1
  /-- `free_desc 2` -/
  | freeDesc2
  /-- `virtio_disk_intr status` -/
  | virtioDiskIntrStatus
  /-- `kerneltrap`, for the use of a null pointer. -/
  | kerneltrap
  /-- `free_chain` goes on after it has seen all descriptors. -/
  | freeChainEndless
  deriving DecidableEq, Repr

abbrev VRING_DESC_F_NEXT : BitVec 16 := 1
abbrev VRING_DESC_F_WRITE : BitVec 16 := 2

abbrev VIRTIO_BLK_T_IN : BitVec 32 := 0
abbrev VIRTIO_BLK_T_OUT : BitVec 32 := 1

/-- What the addresses in descriptors point to. -/
inductive Addr (B : Type)
  | null
  /-- `disk.ops[i]` -/
  | ops (i : ℕ)
  /-- `b->data` -/
  | data (b : B)
  /-- `disk.info[i].status` -/
  | status (i : ℕ)
  deriving DecidableEq

/-- `struct virtq_desc`. -/
structure Desc (B : Type) where
  addr : Addr B
  len : BitVec 32
  flags : BitVec 16
  next : BitVec 16
  deriving DecidableEq

/-- A descriptor that has been cleared. -/
def Desc.zero {B : Type} : Desc B := ⟨.null, 0, 0, 0⟩

/-- `struct virtio_blk_req`. -/
structure BlkReq where
  type : BitVec 32
  reserved : BitVec 32
  sector : BitVec 64
  deriving DecidableEq

/-- An element of `disk.info`. -/
structure Info (B : Type) where
  b : Option B
  status : BitVec 8
  deriving DecidableEq

/-- `struct virtq_avail` and `struct virtq_used`: positions run freely, and are taken modulo `NUM`
to find a place. Elements of the used ring are the heads of chains. -/
structure Ring (α : Type) where
  idx : BitVec 16
  ring : ℕ → α

/-- `struct disk`. -/
structure Disk (B : Type) where
  desc : ℕ → Desc B
  avail : Ring (BitVec 16)
  used : Ring (BitVec 32)
  free : ℕ → Bool
  usedIdx : BitVec 16
  info : ℕ → Info B
  ops : ℕ → BlkReq

/-- The device: how far it has read the avail ring, and the heads that it has not completed. -/
structure Device where
  availIdx : BitVec 16
  taken : List ℕ

/-- `idx[3]` in `virtio_disk_rw`. -/
structure Chain where
  i₀ : ℕ
  i₁ : ℕ
  i₂ : ℕ
  deriving DecidableEq

/-- Where a process is. -/
inductive Pc (B : Type)
  /-- Not in `virtio_disk_rw`. -/
  | out
  /-- At `sleep(&disk.free[0], &disk.vdisk_lock)`. -/
  | alloc (b : B) (write : Bool) (sector : BitVec 64) (asleep : Bool)
  /-- At `sleep(b, &disk.vdisk_lock)`. -/
  | wait (b : B) (idx : Chain) (asleep : Bool)
  deriving DecidableEq

/-- The driver, the buffers of `B`, the processes of `P`, and the device. -/
structure State (P B : Type) where
  disk : Disk B
  /-- `b->disk`. -/
  busy : B → ℤ
  /-- Who has the sleep lock of a buffer. -/
  lock : B → Option P
  pc : P → Pc B
  /-- The interrupt handler is at the head of its loop, and has `vdisk_lock`. -/
  intr : Bool
  device : Device

variable {P B : Type} [DecidableEq P] [DecidableEq B]

/-- Programs of the driver. -/
abbrev DiskM (P B : Type) := StateT (State P B) (Except Panic)

/-- Change `disk`. -/
def onDisk (f : Disk B → Disk B) : DiskM P B Unit := modify fun s => { s with disk := f s.disk }

/-- Change where a process is. -/
def setPc (p : P) (pc : Pc B) : DiskM P B Unit :=
  modify fun s => { s with pc := update s.pc p pc }

/-- `wakeup(&disk.free[0])`, for one process. -/
def Pc.wakeFree : Pc B → Pc B
  | .alloc b write sector _ => .alloc b write sector false
  | pc => pc

/-- `wakeup(b)`, for one process. -/
def Pc.wakeBuf (b : B) : Pc B → Pc B
  | .wait b' idx asleep => .wait b' idx (if b' = b then false else asleep)
  | pc => pc

/-! ### Descriptors -/

/-- `alloc_desc`. -/
def allocDesc : DiskM P B (Option ℕ) := do
  match (List.range NUM).find? (← get).disk.free with
  | none => pure none
  | some i =>
    onDisk fun d => { d with free := update d.free i false }
    pure (some i)

/-- `free_desc`. -/
def freeDesc (i : ℕ) : DiskM P B Unit := do
  if NUM ≤ i then throw .freeDesc1
  else if (← get).disk.free i then throw .freeDesc2
  else
    onDisk fun d => { d with
      desc := update d.desc i .zero
      free := update d.free i true }
    modify fun s => { s with pc := fun p => (s.pc p).wakeFree }

/-- `free_chain`. Every round frees a descriptor, so there are not more rounds than descriptors. -/
def freeChain : ℕ → ℕ → DiskM P B Unit
  | 0, _ => throw .freeChainEndless
  | rounds + 1, i => do
    let desc := (← get).disk.desc i
    freeDesc i
    if desc.flags &&& VRING_DESC_F_NEXT ≠ 0 then freeChain rounds desc.next.toNat

/-- `alloc3_desc`. -/
def alloc3Desc : DiskM P B (Option Chain) := do
  match ← allocDesc with
  | none => pure none
  | some i₀ =>
    match ← allocDesc with
    | none =>
      freeDesc i₀
      pure none
    | some i₁ =>
      match ← allocDesc with
      | none =>
        freeDesc i₀
        freeDesc i₁
        pure none
      | some i₂ => pure (some ⟨i₀, i₁, i₂⟩)

/-! ### Requests -/

/-- The three descriptors of a request. -/
def Disk.format (d : Disk B) (b : B) (write : Bool) (sector : BitVec 64) (idx : Chain) : Disk B :=
  let ops := update d.ops idx.i₀
    ⟨if write then VIRTIO_BLK_T_OUT else VIRTIO_BLK_T_IN, 0, sector⟩
  let desc := update d.desc idx.i₀
    ⟨.ops idx.i₀, 16, VRING_DESC_F_NEXT, BitVec.ofNat 16 idx.i₁⟩
  let desc := update desc idx.i₁
    ⟨.data b, 1024, (if write then 0 else VRING_DESC_F_WRITE) ||| VRING_DESC_F_NEXT,
      BitVec.ofNat 16 idx.i₂⟩
  let desc := update desc idx.i₂ ⟨.status idx.i₀, 1, VRING_DESC_F_WRITE, 0⟩
  { d with ops := ops, desc := desc, info := update d.info idx.i₀ ⟨some b, 0xff⟩ }

/-- Tell the device the head of a chain. -/
def Disk.publish (d : Disk B) (i : ℕ) : Disk B :=
  { d with avail :=
    { ring := update d.avail.ring (d.avail.idx.toNat % NUM) (BitVec.ofNat 16 i)
      idx := d.avail.idx + 1 } }

/-- `virtio_disk_rw`, from the loop that allocates descriptors to the next sleep. -/
def request (p : P) (b : B) (write : Bool) (sector : BitVec 64) : DiskM P B Unit := do
  match ← alloc3Desc with
  | none => setPc p (.alloc b write sector true)
  | some idx =>
    onDisk fun d => d.format b write sector idx
    modify fun s => { s with busy := update s.busy b 1 }
    onDisk fun d => d.publish idx.i₀
    setPc p (.wait b idx true)

/-- `virtio_disk_rw`, from its start to the first sleep. -/
def virtioDiskRw (p : P) (b : B) (write : Bool) (blockno : BitVec 32) : DiskM P B Unit := do
  modify fun s => { s with lock := update s.lock b (some p) }
  request p b write ((blockno * 2).setWidth 64)

/-- `virtio_disk_rw`, from the loop that waits for the device to the next sleep or the end. -/
def finish (p : P) (b : B) (idx : Chain) : DiskM P B Unit := do
  if (← get).busy b = 1 then setPc p (.wait b idx true)
  else
    onDisk fun d => { d with info := update d.info idx.i₀ { d.info idx.i₀ with b := none } }
    freeChain (NUM + 1) idx.i₀
    setPc p .out
    modify fun s => { s with lock := update s.lock b none }

/-- `virtio_disk_intr`, one round of the loop. -/
def virtioDiskIntr : DiskM P B Unit := do
  let d := (← get).disk
  let id := (d.used.ring (d.usedIdx.toNat % NUM)).toNat
  if (d.info id).status ≠ 0 then throw .virtioDiskIntrStatus
  else
    match (d.info id).b with
    | none => throw .kerneltrap
    | some b =>
      modify fun s => { s with
        busy := update s.busy b 0
        pc := fun p => (s.pc p).wakeBuf b }
      onDisk fun d => { d with usedIdx := d.usedIdx + 1 }

/-! ### The device -/

/-- The device takes the next head. -/
def State.take (s : State P B) : State P B := { s with device :=
  { availIdx := s.device.availIdx + 1
    taken := s.device.taken ++
      [(s.disk.avail.ring (s.device.availIdx.toNat % NUM)).toNat] } }

/-- Where the device puts the status of the chain with head `i`. -/
def Disk.statusAddr (d : Disk B) (i : ℕ) : Addr B :=
  (d.desc (d.desc (d.desc i).next.toNat).next.toNat).addr

/-- Put the status `0` at an address. -/
def Disk.putStatus (d : Disk B) : Addr B → Disk B
  | .status i => { d with info := update d.info i { d.info i with status := 0 } }
  | _ => d

/-- The device completes the chain with head `i`. -/
def State.complete (s : State P B) (i : ℕ) : State P B := { s with
  disk := { s.disk.putStatus (s.disk.statusAddr i) with used :=
    { ring := update s.disk.used.ring (s.disk.used.idx.toNat % NUM) (BitVec.ofNat 32 i)
      idx := s.disk.used.idx + 1 } }
  device := { s.device with taken := s.device.taken.erase i } }

/-! ### The system -/

/-- What can happen. -/
inductive Event (P B : Type)
  /-- A process calls `virtio_disk_rw`. -/
  | rw (p : P) (b : B) (write : Bool) (blockno : BitVec 32)
  /-- A process goes on after a sleep. -/
  | run (p : P)
  /-- The interrupt handler gets the lock. -/
  | intr
  | round
  /-- The interrupt handler ends. -/
  | done
  | take
  | complete (i : ℕ)

/-- The event can happen. -/
def Enabled (s : State P B) : Event P B → Prop
  | .rw p b _ _ => s.intr = false ∧ s.pc p = .out ∧ s.lock b = none
  | .run p =>
    s.intr = false ∧ match s.pc p with
      | .out => False
      | .alloc _ _ _ asleep | .wait _ _ asleep => asleep = false
  | .intr => s.intr = false
  | .round => s.intr = true ∧ s.disk.usedIdx ≠ s.disk.used.idx
  | .done => s.intr = true ∧ s.disk.usedIdx = s.disk.used.idx
  | .take => s.device.availIdx ≠ s.disk.avail.idx
  | .complete i => i ∈ s.device.taken

instance (s : State P B) : (e : Event P B) → Decidable (Enabled s e)
  | .rw _ _ _ _ => inferInstanceAs (Decidable (_ ∧ _))
  | .run p =>
    have : Decidable (match s.pc p with
        | .out => False
        | .alloc _ _ _ asleep | .wait _ _ asleep => asleep = false) :=
      match s.pc p with
      | .out => inferInstanceAs (Decidable False)
      | .alloc _ _ _ asleep | .wait _ _ asleep => inferInstanceAs (Decidable (asleep = false))
    inferInstanceAs (Decidable (_ ∧ _))
  | .intr => inferInstanceAs (Decidable (_ = _))
  | .round | .done => inferInstanceAs (Decidable (_ ∧ _))
  | .take => inferInstanceAs (Decidable (_ ≠ _))
  | .complete _ => inferInstanceAs (Decidable (_ ∈ _))

/-- A process goes on after a sleep. -/
def resume (p : P) : Pc B → DiskM P B Unit
  | .out => pure ()
  | .alloc b write sector _ => request p b write sector
  | .wait b idx _ => finish p b idx

/-- What happens. -/
def exec : Event P B → DiskM P B Unit
  | .rw p b write blockno => virtioDiskRw p b write blockno
  | .run p => do resume p ((← get).pc p)
  | .intr => modify fun s => { s with intr := true }
  | .round => virtioDiskIntr
  | .done => modify fun s => { s with intr := false }
  | .take => modify State.take
  | .complete i => modify fun s => s.complete i

/-- The state after an event, if nothing panics. -/
def step (s : State P B) (e : Event P B) : Option (State P B) :=
  if Enabled s e then
    match (exec e).run s with
    | .ok (_, t) => some t
    | .error _ => none
  else none

/-- The state after `virtio_disk_init`. -/
def init : State P B where
  disk :=
    { desc := fun _ => .zero
      avail := ⟨0, fun _ => 0⟩
      used := ⟨0, fun _ => 0⟩
      free := fun _ => true
      usedIdx := 0
      info := fun _ => ⟨none, 0⟩
      ops := fun _ => ⟨0, 0, 0⟩ }
  busy := fun _ => 0
  lock := fun _ => none
  pc := fun _ => .out
  intr := false
  device := ⟨0, []⟩

end Xv6.Virtio
