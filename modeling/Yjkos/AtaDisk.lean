import Yjkos.Machine

/-!
# ATA disks

`kernel/dev/atadisk.c` over the operations of
`kernel/arch/i586/dev/idebus.c`.  What the hardware answers comes from a
stream: every wait takes the next answer, which says whether the wait ends
well and what the bus master reports then.  A stream which has run dry times
out.  A command acts on the sectors which the registers address, and a failed
write leaves anything in them.

Sectors and the caller's buffer are functions from byte positions; positions
in the buffer count from its start.
-/

namespace Yjkos
namespace Ata

def sectorSize : ℕ := 512

def maxSectorsPerTransfer : ℕ := 256

def maxRetries : ℕ := 3

def maxTransferSizePerPrd : ℕ := 65536

/-- `size_to_blocks(MAX_DMA_TRANSFER_SIZE_NEEDED,
MAX_TRANSFTER_SIZE_PER_PRD)`. -/
def prdCount : ℕ := 2

structure Regs where
  features : BitVec 8
  sectorcount : BitVec 8
  lbaLo : BitVec 8
  lbaMid : BitVec 8
  lbaHi : BitVec 8
  driveAndHead : BitVec 8
deriving Repr, DecidableEq

/-- A descriptor, with the bounce buffer it points to. -/
structure Prd where
  len : ℕ
  last : Bool
  bytes : ℕ → BitVec 8

inductive DmaStatus where
  | failUdmaCrc
  | failOtherIo
  | failNomem
  | success
  | busy
deriving Repr, DecidableEq

/-- The end of a wait. -/
structure Answer where
  ok : Bool
  status : DmaStatus
deriving Repr, DecidableEq

structure State where
  regs : Regs
  disk : ℕ → ℕ → BitVec 8
  buffer : ℕ → BitVec 8
  prdt : ℕ → Prd
  answers : List Answer
  requests : ℕ

/-- What stays the same during a call: the drive on the bus, the registers
after a reset, and what a failed request leaves in its sectors. -/
structure Bus where
  drive : Bool
  resetRegs : Regs
  junk : ℕ → ℕ → ℕ → BitVec 8

/-! ## Registers -/

def selectDrive (bus : Bus) (regs : Regs) : Regs :=
  let regval := if bus.drive then regs.driveAndHead ||| 0x10#8
    else regs.driveAndHead &&& ~~~0x10#8
  { regs with driveAndHead := regval ||| 0x40#8 }

def setFeaturesParam (regs : Regs) (data : ℕ) : Regs :=
  { regs with features := BitVec.ofNat 8 data }

def setCountParam (regs : Regs) (data : ℕ) : Regs :=
  { regs with sectorcount := BitVec.ofNat 8 data }

def setLbaParam (regs : Regs) (data : BitVec 32) : Regs :=
  { regs with
    lbaLo := data.setWidth 8
    lbaMid := (data >>> 8).setWidth 8
    lbaHi := (data >>> 16).setWidth 8
    driveAndHead := regs.driveAndHead &&& ~~~0x0f#8 |||
      (data >>> 24).setWidth 8 &&& 0x0f#8 }

def getLbaOutput (regs : Regs) : BitVec 32 :=
  (regs.driveAndHead.setWidth 32 &&& 0x0f#32) <<< 24 |||
    regs.lbaHi.setWidth 32 <<< 16 ||| regs.lbaMid.setWidth 32 <<< 8 |||
    regs.lbaLo.setWidth 32

/-- The first sector a command acts on. -/
def Regs.address (regs : Regs) : ℕ := (getLbaOutput regs).toNat

/-- The number of sectors a command acts on. -/
def Regs.count (regs : Regs) : ℕ :=
  if regs.sectorcount = 0 then maxSectorsPerTransfer
  else regs.sectorcount.toNat

/-- The registers in front of a command. -/
def commandRegs (bus : Bus) (regs : Regs) (lba sectorCount : ℕ) : Regs :=
  let regs := setFeaturesParam (selectDrive bus regs) 0
  let regs := if sectorCount = maxSectorsPerTransfer then
      setCountParam regs 0
    else setCountParam regs sectorCount
  setLbaParam regs (BitVec.ofNat 32 lba)

/-! ## Waiting -/

/-- The `wait_` functions. -/
def wait (s : State) : Bool × State :=
  match s.answers with
  | [] => (false, s)
  | answer :: rest => (answer.ok, { s with answers := rest })

/-- The loop of `try_read_dma` and `try_write_dma`: nothing when a wait fails,
else what the bus master reports at last. -/
def dmaLoop : List Answer → Option DmaStatus × List Answer
  | [] => (none, [])
  | answer :: rest =>
      if answer.ok then
        match answer.status with
        | .busy => dmaLoop rest
        | status => (some status, rest)
      else (none, rest)

/-! ## Programmed transfers -/

/-- `buffer.data[i] = ((uint32_t)srcbuf[1] << 8) | srcbuf[0]`. -/
def wordOf (lo hi : BitVec 8) : BitVec 16 :=
  (hi.setWidth 32 <<< 8 ||| lo.setWidth 32).setWidth 16

/-- The bytes of a word, as `try_read_pio` stores them. -/
def byteOf (word : BitVec 16) (high : Bool) : BitVec 8 :=
  if high then (word >>> 8).setWidth 8 else word.setWidth 8

/-- The 256 words of a sector in the data register. -/
def sectorWords (sector : ℕ → BitVec 8) (i : ℕ) : BitVec 16 :=
  wordOf (sector (2 * i)) (sector (2 * i + 1))

/-- Stores the words at a position of the buffer. -/
def storeWords (buffer : ℕ → BitVec 8) (dest : ℕ) (words : ℕ → BitVec 16) :
    ℕ → BitVec 8 := fun p =>
  if dest ≤ p ∧ p < dest + sectorSize then
    byteOf (words ((p - dest) / 2)) ((p - dest) % 2 = 1)
  else buffer p

def tryReadPio : ℕ → ℕ → ℕ → State → Except Errno Unit × State
  | 0, _, _, s => (.ok (), s)
  | left + 1, sector, destbuf, s =>
      match wait s with
      | (false, s) => (.error .eio, s)
      | (true, s) =>
          match wait s with
          | (false, s) => (.error .eio, s)
          | (true, s) =>
              let data := sectorWords (s.disk (s.regs.address + sector))
              tryReadPio left (sector + 1) (destbuf + sectorSize)
                { s with buffer := storeWords s.buffer destbuf data }

/-- Writes the words to a sector of the disk. -/
def writeData (disk : ℕ → ℕ → BitVec 8) (n : ℕ) (words : ℕ → BitVec 16) :
    ℕ → ℕ → BitVec 8 :=
  Function.update disk n fun p => byteOf (words (p / 2)) (p % 2 = 1)

def tryWritePio : ℕ → ℕ → ℕ → State → Except Errno Unit × State
  | 0, _, _, s => (.ok (), s)
  | left + 1, sector, srcbuf, s =>
      match wait s with
      | (false, s) => (.error .eio, s)
      | (true, s) =>
          match wait s with
          | (false, s) => (.error .eio, s)
          | (true, s) =>
              let words := fun i =>
                wordOf (s.buffer (srcbuf + 2 * i)) (s.buffer (srcbuf + 2 * i + 1))
              let s := { s with
                disk := writeData s.disk (s.regs.address + sector) words }
              match wait s with
              | (false, s) => (.error .eio, s)
              | (true, s) =>
                  tryWritePio left (sector + 1) (srcbuf + sectorSize) s

/-! ## Bus master transfers -/

/-- The number of bytes a descriptor stands for. -/
def Prd.size (prd : Prd) : ℕ := if prd.len = 0 then 65536 else prd.len

/-- `pmemcpy_out` and `pmemcpy_in` copy a range of bytes. -/
def copyBytes (dest : ℕ → BitVec 8) (destPos : ℕ) (src : ℕ → BitVec 8)
    (srcPos len : ℕ) : ℕ → BitVec 8 := fun p =>
  if destPos ≤ p ∧ p < destPos + len then src (srcPos + (p - destPos))
  else dest p

/-- The loop of `atadisk_op_dma_init_transfter`.  The first argument is what
is left of the table, so that it runs out where the assertion fails. -/
def fillPrdt (buffer : ℕ → BitVec 8) (pos : ℕ) (isRead : Bool) :
    ℕ → ℕ → ℕ → (ℕ → Prd) → Except Fault (ℕ → Prd)
  | left, i, remaining, prdt =>
      if remaining = 0 then .ok prdt
      else
        match left with
        | 0 => .error (.assertion "i < bus->prd_count")
        | left + 1 =>
            let currentsize := min remaining maxTransferSizePerPrd
            let prd : Prd :=
              { len := if currentsize = maxTransferSizePerPrd then 0
                  else currentsize
                last := if remaining ≤ maxTransferSizePerPrd then true
                  else false
                bytes := if isRead then (prdt i).bytes
                  else copyBytes (prdt i).bytes 0 buffer
                    (pos + i * maxTransferSizePerPrd) currentsize }
            fillPrdt buffer pos isRead left (i + 1) (remaining - currentsize)
              (Function.update prdt i prd)

def dmaInitTransfer (s : State) (pos len : ℕ) (isRead : Bool) :
    Except Fault State := do
  cAssert (len ≤ maxSectorsPerTransfer * sectorSize)
    "len <= MAX_DMA_TRANSFER_SIZE_NEEDED"
  let prdt ← fillPrdt s.buffer pos isRead prdCount 0 len s.prdt
  .ok { s with prdt := prdt }

/-- The bytes of the sectors from `address` on, as the drive sends them. -/
def sectorStream (disk : ℕ → ℕ → BitVec 8) (address : ℕ) : ℕ → BitVec 8 :=
  fun j => disk (address + j / sectorSize) (j % sectorSize)

/-- The bus master stores a stream of bytes through the descriptors. -/
def storeStream (stream : ℕ → BitVec 8) :
    ℕ → ℕ → ℕ → (ℕ → Prd) → (ℕ → Prd)
  | 0, _, _, prdt => prdt
  | left + 1, i, sent, prdt =>
      let prd := prdt i
      let prdt := Function.update prdt i
        { prd with bytes := copyBytes prd.bytes 0 stream sent prd.size }
      if prd.last then prdt
      else storeStream stream left (i + 1) (sent + prd.size) prdt

/-- The stream of bytes which the bus master fetches through the
descriptors. -/
def fetchStream : ℕ → ℕ → (ℕ → Prd) → ℕ → BitVec 8
  | 0, _, _, _ => 0
  | left + 1, i, prdt, j =>
      if j < (prdt i).size then (prdt i).bytes j
      else if (prdt i).last then 0
      else fetchStream left (i + 1) prdt (j - (prdt i).size)

/-- The loop of `atadisk_op_dma_end_transfer`. -/
def drainPrdt (pos : ℕ) :
    ℕ → ℕ → (ℕ → Prd) → (ℕ → BitVec 8) → (ℕ → BitVec 8)
  | 0, _, _, buffer => buffer
  | left + 1, i, prdt, buffer =>
      let prd := prdt i
      let buffer := copyBytes buffer (pos + i * maxTransferSizePerPrd)
        prd.bytes 0 prd.size
      if prd.last then buffer
      else drainPrdt pos left (i + 1) prdt buffer

/-- The sectors which the registers address take the bytes of a stream. -/
def writeSectorsOf (disk : ℕ → ℕ → BitVec 8) (address count : ℕ)
    (stream : ℕ → BitVec 8) : ℕ → ℕ → BitVec 8 := fun n =>
  if address ≤ n ∧ n < address + count then
    fun p => stream ((n - address) * sectorSize + p)
  else disk n

/-- `errno` of a bus master status other than success. -/
def dmaErrno : DmaStatus → Errno
  | .failNomem => .enomem
  | _ => .eio

structure TryResult where
  ret : Except Errno Unit
  isCrcError : Bool
  state : State

def tryReadDma (s : State) (pos : ℕ) : TryResult :=
  match dmaLoop s.answers with
  | (none, rest) => ⟨.error .eio, false, { s with answers := rest }⟩
  | (some .success, rest) =>
      let prdt := storeStream (sectorStream s.disk s.regs.address) prdCount 0
        0 s.prdt
      ⟨.ok (), false,
        { s with
          answers := rest
          prdt := prdt
          buffer := drainPrdt pos prdCount 0 prdt s.buffer }⟩
  | (some status, rest) =>
      ⟨.error (dmaErrno status), status = .failUdmaCrc,
        { s with answers := rest }⟩

def tryWriteDma (s : State) : TryResult :=
  match dmaLoop s.answers with
  | (none, rest) => ⟨.error .eio, false, { s with answers := rest }⟩
  | (some .success, rest) =>
      ⟨.ok (), false,
        { s with
          answers := rest
          disk := writeSectorsOf s.disk s.regs.address s.regs.count
            (fetchStream prdCount 0 s.prdt) }⟩
  | (some status, rest) =>
      ⟨.error (dmaErrno status), status = .failUdmaCrc,
        { s with answers := rest }⟩

/-! ## Requests -/

/-- The flag of a bus master error is overwritten before `try_read`
returns. -/
def tryRead (bus : Bus) (s : State) (destbuf : ℕ) (canDma : Bool)
    (lba sectorCount : ℕ) : Except Fault TryResult := do
  let s := { s with requests := s.requests + 1 }
  let s ← if canDma then
      dmaInitTransfer s destbuf (sectorCount * sectorSize) true
    else .ok s
  let s := { s with regs := commandRegs bus s.regs lba sectorCount }
  if canDma then
    let result := tryReadDma s destbuf
    .ok ⟨result.ret, false, result.state⟩
  else
    let (ret, s) := tryReadPio sectorCount 0 destbuf s
    .ok ⟨ret, false, s⟩

/-- The wait for the drive behind a write, and `flush_cache`. -/
def finishWrite (bus : Bus) (s : State) : Except Errno Unit × State :=
  match wait s with
  | (false, s) => (.error .eio, s)
  | (true, s) =>
      match wait { s with regs := selectDrive bus s.regs } with
      | (false, s) => (.error .eio, s)
      | (true, s) => (.ok (), s)

/-- A failed request has left anything in the sectors it addressed. -/
def spoil (bus : Bus) (result : TryResult) : TryResult :=
  let s := result.state
  match result.ret with
  | .ok () => result
  | .error _ =>
      { result with
        state := { s with
          disk := fun n =>
            if s.regs.address ≤ n ∧ n < s.regs.address + s.regs.count then
              bus.junk s.requests n
            else s.disk n } }

/-- `try_write` behind its transfer. -/
def completeWrite (bus : Bus) (result : TryResult) : TryResult :=
  match result.ret with
  | .error _ => spoil bus result
  | .ok () =>
      let (ret, s) := finishWrite bus result.state
      spoil bus ⟨ret, result.isCrcError, s⟩

def tryWrite (bus : Bus) (s : State) (srcbuf : ℕ) (canDma : Bool)
    (lba sectorCount : ℕ) : Except Fault TryResult := do
  let s := { s with requests := s.requests + 1 }
  let s ← if canDma then
      dmaInitTransfer s srcbuf (sectorCount * sectorSize) false
    else .ok s
  let s := { s with regs := commandRegs bus s.regs lba sectorCount }
  let result : TryResult :=
    if canDma then tryWriteDma s
    else
      let (ret, s) := tryWritePio sectorCount 0 srcbuf s
      ⟨ret, false, s⟩
  .ok (completeWrite bus result)

/-- One batch: up to `MAX_RETRIES` new tries, with the drive reset in between
unless the bus reported a transmission error. -/
def retry (bus : Bus) (canDma : Bool)
    (attempt : State → Except Fault TryResult) :
    ℕ → State → Except Fault (Except Errno Unit × State)
  | 0, s => do
      let result ← attempt s
      .ok (result.ret, result.state)
  | left + 1, s => do
      let result ← attempt s
      match result.ret with
      | .ok () => .ok (.ok (), result.state)
      | .error _ =>
          let s := result.state
          let s := if !result.isCrcError && canDma then
              { s with regs := bus.resetRegs }
            else s
          retry bus canDma attempt left s

/-- The loop of `read_sectors` and `write_sectors` over its batches.  The
first argument bounds their number. -/
def transferSectors (bus : Bus) (canDma : Bool)
    (attempt : State → ℕ → ℕ → ℕ → Except Fault TryResult) :
    ℕ → ℕ → ℕ → ℕ → State → Except Fault (Except Errno Unit × State)
  | fuel, remaining, lba, pos, s =>
      if remaining = 0 then .ok (.ok (), s)
      else
        match fuel with
        | 0 => .error .outOfFuel
        | fuel + 1 => do
            let current := min remaining maxSectorsPerTransfer
            match ← retry bus canDma (fun s => attempt s pos lba current)
                maxRetries s with
            | (.error e, s) => .ok (.error e, s)
            | (.ok (), s) =>
                transferSectors bus canDma attempt fuel (remaining - current)
                  (wrap (lba + current)) (pos + current * sectorSize) s

def readSectors (bus : Bus) (canDma : Bool) (s : State)
    (lba sectorCount : ℕ) : Except Fault (Except Errno Unit × State) :=
  transferSectors bus canDma
    (fun s pos lba count => tryRead bus s pos canDma lba count)
    sectorCount sectorCount lba 0 s

def writeSectors (bus : Bus) (canDma : Bool) (s : State)
    (lba sectorCount : ℕ) : Except Fault (Except Errno Unit × State) :=
  transferSectors bus canDma
    (fun s pos lba count => tryWrite bus s pos canDma lba count)
    sectorCount sectorCount lba 0 s

end Ata
end Yjkos
