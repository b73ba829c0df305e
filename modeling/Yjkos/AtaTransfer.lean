import Yjkos.AtaDisk

/-!
# What the transfers move

A request acts on the sectors from its address on, of which the registers
hold 28 bits.  The buffer and the disk after a transfer are described as
functions of the ones before it.
-/

namespace Yjkos
namespace Ata

/-! ## Registers -/

theorem getLbaOutput_setLbaParam (regs : Regs) (data : BitVec 32) :
    getLbaOutput (setLbaParam regs data) = data &&& 0x0fffffff#32 := by
  apply BitVec.eq_of_getLsbD_eq
  intro i hi
  simp only [getLbaOutput, setLbaParam]
  interval_cases i <;> simp

theorem address_commandRegs (bus : Bus) (regs : Regs) {lba : ℕ}
    (hlba : lba < 4294967296) (n : ℕ) :
    (commandRegs bus regs lba n).address = lba % 268435456 := by
  unfold commandRegs Regs.address
  rw [getLbaOutput_setLbaParam]
  rw [BitVec.toNat_and, BitVec.toNat_ofNat, BitVec.toNat_ofNat,
    Nat.mod_eq_of_lt hlba, show 0x0fffffff % 2 ^ 32 = 2 ^ 28 - 1 by rfl,
    Nat.and_two_pow_sub_one_eq_mod]

theorem count_commandRegs (bus : Bus) (regs : Regs) (lba : ℕ) {n : ℕ}
    (hpos : 0 < n) (hn : n ≤ 256) :
    (commandRegs bus regs lba n).count = n := by
  by_cases hfull : n = 256
  · subst hfull
    rfl
  · have hlt : n < 2 ^ 8 := by omega
    have hcount : (commandRegs bus regs lba n).sectorcount =
        BitVec.ofNat 8 n := by
      unfold commandRegs
      dsimp only
      rw [if_neg (show ¬n = maxSectorsPerTransfer from hfull)]
      rfl
    have htoNat : (BitVec.ofNat 8 n).toNat = n := by
      rw [BitVec.toNat_ofNat, Nat.mod_eq_of_lt hlt]
    unfold Regs.count
    rw [hcount, if_neg, htoNat]
    intro hzero
    rw [hzero] at htoNat
    simp at htoNat
    omega

theorem address_selectDrive (bus : Bus) (regs : Regs) :
    (selectDrive bus regs).address = regs.address := by
  have hnibble : ∀ (drive : Bool) (b : BitVec 8),
      ((if drive then b ||| 0x10#8 else b &&& ~~~0x10#8) |||
        0x40#8).setWidth 32 &&& 0x0f#32 = b.setWidth 32 &&& 0x0f#32 := by
    intro drive b
    apply BitVec.eq_of_getLsbD_eq
    intro i hi
    rw [BitVec.getLsbD_and, BitVec.getLsbD_and]
    rcases Nat.lt_or_ge i 4 with hlow | hhigh
    · interval_cases i <;> cases drive <;> simp
    · have hmask : (0x0f#32).getLsbD i = false := by
        rw [BitVec.getLsbD_ofNat, show 0x0f = 2 ^ 4 - 1 by rfl,
          Nat.testBit_two_pow_sub_one, decide_eq_false (not_lt.2 hhigh),
          Bool.and_false]
      rw [hmask, Bool.and_false, Bool.and_false]
  unfold Regs.address getLbaOutput selectDrive
  simp only [hnibble]

theorem count_selectDrive (bus : Bus) (regs : Regs) :
    (selectDrive bus regs).count = regs.count :=
  rfl

/-! ## Words -/

theorem byteOf_wordOf (lo hi : BitVec 8) (high : Bool) :
    byteOf (wordOf lo hi) high = if high then hi else lo := by
  apply BitVec.eq_of_getLsbD_eq
  intro i hi
  cases high <;> simp only [byteOf, wordOf] <;> interval_cases i <;> simp

theorem storeWords_sectorWords (buffer sector : ℕ → BitVec 8) (dest p : ℕ) :
    storeWords buffer dest (sectorWords sector) p =
      if dest ≤ p ∧ p < dest + sectorSize then sector (p - dest)
      else buffer p := by
  unfold storeWords sectorWords
  split
  next hp =>
    rw [byteOf_wordOf]
    by_cases hodd : (p - dest) % 2 = 1
    · simp only [hodd, decide_true, if_true]
      congr 1
      omega
    · simp only [hodd, decide_false, Bool.false_eq_true, if_false]
      congr 1
      omega
  next => rfl

theorem writeData_words (disk : ℕ → ℕ → BitVec 8) (buffer : ℕ → BitVec 8)
    (src n : ℕ) :
    writeData disk n (fun i =>
      wordOf (buffer (src + 2 * i)) (buffer (src + 2 * i + 1))) =
    Function.update disk n (fun q => buffer (src + q)) := by
  unfold writeData
  congr 1
  funext q
  rw [byteOf_wordOf]
  by_cases hodd : q % 2 = 1
  · simp only [hodd, decide_true, if_true]
    congr 1
    omega
  · simp only [hodd, decide_false, Bool.false_eq_true, if_false]
    congr 1
    omega

/-! ## Reading -/

/-- The buffer has taken the sectors: piece `i` is sector `sector i`, and the
rest of the buffer and the disk are as before. -/
structure Reads (s s' : State) (pos count : ℕ) (sector : ℕ → ℕ) : Prop where
  disk : s'.disk = s.disk
  buffer : ∀ p, s'.buffer p =
    if pos ≤ p ∧ p < pos + count * 512 then
      s.disk (sector ((p - pos) / 512)) ((p - pos) % 512)
    else s.buffer p

/-- A read which may have stopped half-way. -/
structure ReadsInto (s s' : State) (pos count : ℕ) : Prop where
  disk : s'.disk = s.disk
  buffer : ∀ p, p < pos ∨ pos + count * 512 ≤ p → s'.buffer p = s.buffer p

theorem Reads.into {s s' : State} {pos count : ℕ} {sector : ℕ → ℕ}
    (h : Reads s s' pos count sector) : ReadsInto s s' pos count :=
  ⟨h.disk, fun p hp => by rw [h.buffer p, if_neg (by omega)]⟩

theorem ReadsInto.refl (s : State) (pos count : ℕ) :
    ReadsInto s s pos count :=
  ⟨rfl, fun _ _ => rfl⟩

theorem ReadsInto.trans {s s' s'' : State} {pos count : ℕ}
    (h : ReadsInto s s' pos count) (h' : ReadsInto s' s'' pos count) :
    ReadsInto s s'' pos count :=
  ⟨h'.disk.trans h.disk, fun p hp => (h'.buffer p hp).trans (h.buffer p hp)⟩

theorem ReadsInto.reads {s s' s'' : State} {pos count : ℕ}
    {sector : ℕ → ℕ} (h : ReadsInto s s' pos count)
    (h' : Reads s' s'' pos count sector) : Reads s s'' pos count sector := by
  refine ⟨h'.disk.trans h.disk, ?_⟩
  intro p
  rw [h'.buffer p, h.disk]
  split
  · rfl
  next hp => exact h.buffer p (by omega)

theorem Reads.cons {s s₁ s₂ : State} {pos first : ℕ} {count : ℕ}
    {sector : ℕ → ℕ} (h : Reads s s₁ pos first sector)
    (h' : Reads s₁ s₂ (pos + first * 512) count
      (fun i => sector (first + i))) :
    Reads s s₂ pos (first + count) sector := by
  refine ⟨h'.disk.trans h.disk, ?_⟩
  intro p
  rw [h'.buffer p, h.disk, h.buffer p]
  by_cases hlater : pos + first * 512 ≤ p
  · have hnot : ¬(pos ≤ p ∧ p < pos + first * 512) := by omega
    have hin : (pos + first * 512 ≤ p ∧ p < pos + first * 512 + count * 512) ↔
        (pos ≤ p ∧ p < pos + (first + count) * 512) := by omega
    have hdiv : first + (p - (pos + first * 512)) / 512 = (p - pos) / 512 := by
      omega
    have hmod : (p - (pos + first * 512)) % 512 = (p - pos) % 512 := by omega
    rw [hdiv, hmod, if_neg hnot]
    exact if_congr hin rfl rfl
  · have hnot : ¬(pos + first * 512 ≤ p ∧
        p < pos + first * 512 + count * 512) := by omega
    have hin : (pos ≤ p ∧ p < pos + first * 512) ↔
        (pos ≤ p ∧ p < pos + (first + count) * 512) := by omega
    rw [if_neg hnot]
    exact if_congr hin rfl rfl

/-- Only the stream of answers has changed. -/
structure Waited (s s' : State) : Prop where
  regs : s'.regs = s.regs
  disk : s'.disk = s.disk
  buffer : s'.buffer = s.buffer
  prdt : s'.prdt = s.prdt

theorem Waited.trans {s s' s'' : State} (h : Waited s s')
    (h' : Waited s' s'') : Waited s s'' :=
  ⟨h'.regs.trans h.regs, h'.disk.trans h.disk, h'.buffer.trans h.buffer,
    h'.prdt.trans h.prdt⟩

theorem Waited.into {s s' : State} (h : Waited s s') (pos count : ℕ) :
    ReadsInto s s' pos count :=
  ⟨h.disk, fun _ _ => by rw [h.buffer]⟩

theorem wait_waited {s s' : State} {ok : Bool} (h : wait s = (ok, s')) :
    Waited s s' := by
  unfold wait at h
  split at h
  · cases h
    exact ⟨rfl, rfl, rfl, rfl⟩
  · cases h
    exact ⟨rfl, rfl, rfl, rfl⟩

theorem reads_storeWords (s : State) (pos n : ℕ) (sector : ℕ → ℕ)
    (hsector : sector 0 = n) :
    Reads s { s with
      buffer := storeWords s.buffer pos (sectorWords (s.disk n)) } pos 1
      sector := by
  refine ⟨rfl, ?_⟩
  intro p
  show storeWords s.buffer pos (sectorWords (s.disk n)) p = _
  rw [storeWords_sectorWords, sectorSize, Nat.one_mul]
  split
  next hp =>
    have hdiv : (p - pos) / 512 = 0 := by omega
    have hmod : (p - pos) % 512 = p - pos := by omega
    rw [hdiv, hmod, hsector]
  next => rfl

/-- The outcome of a read request. -/
def ReadOutcome (s s' : State) (ret : Except Errno Unit) (pos count : ℕ)
    (sector : ℕ → ℕ) : Prop :=
  match ret with
  | .ok () => Reads s s' pos count sector
  | .error _ => ReadsInto s s' pos count

theorem Reads.outcome {s s₁ s₂ : State} {ret : Except Errno Unit}
    {pos first count : ℕ} {sector : ℕ → ℕ}
    (h : Reads s s₁ pos first sector)
    (h' : ReadOutcome s₁ s₂ ret (pos + first * 512) count
      (fun i => sector (first + i))) :
    ReadOutcome s s₂ ret pos (first + count) sector := by
  cases ret with
  | ok =>
      exact h.cons h'
  | error e =>
      have hinto : ReadsInto s₁ s₂ (pos + first * 512) count := h'
      refine ⟨hinto.disk.trans h.disk, ?_⟩
      intro p hp
      have hfirst : ¬(pos ≤ p ∧ p < pos + first * 512) := by omega
      have hrest : p < pos + first * 512 ∨
          pos + first * 512 + count * 512 ≤ p := by omega
      rw [hinto.buffer p hrest, h.buffer p, if_neg hfirst]

theorem ReadsInto.outcome {s s₁ s₂ : State} {ret : Except Errno Unit}
    {pos count : ℕ} {sector : ℕ → ℕ} (h : ReadsInto s s₁ pos count)
    (h' : ReadOutcome s₁ s₂ ret pos count sector) :
    ReadOutcome s s₂ ret pos count sector := by
  cases ret with
  | ok => exact h.reads h'
  | error e => exact h.trans h'

theorem tryReadPio_spec {left sector pos : ℕ} {s s' : State}
    {ret : Except Errno Unit}
    (h : tryReadPio left sector pos s = (ret, s')) :
    ReadOutcome s s' ret pos left (fun i => s.regs.address + (sector + i)) := by
  induction left generalizing sector pos s with
  | zero =>
      cases h
      refine ⟨rfl, fun p => ?_⟩
      have hnot : ¬(pos ≤ p ∧ p < pos + 0 * 512) := by omega
      rw [if_neg hnot]
  | succ left ih =>
      unfold tryReadPio at h
      split at h
      next s₁ hwait =>
        cases h
        exact (wait_waited hwait).into pos _
      next s₁ hwait =>
        split at h
        next s₂ hwait₂ =>
          cases h
          exact ((wait_waited hwait).trans (wait_waited hwait₂)).into pos _
        next s₂ hwait₂ =>
          have hwaited := (wait_waited hwait).trans (wait_waited hwait₂)
          have hsector : s.regs.address + (sector + 0) =
              s₂.regs.address + sector := by rw [hwaited.regs, Nat.add_zero]
          have hone := reads_storeWords s₂ pos _
            (fun i => s.regs.address + (sector + i)) hsector
          have hrest := ih h
          rw [Nat.add_comm left 1]
          apply ((hwaited.into pos 1).reads hone).outcome
          simpa only [hwaited.regs, Nat.add_assoc, sectorSize,
            Nat.one_mul] using hrest

/-! ## Descriptors -/

/-- The descriptors from `i` on stand for `remaining` bytes, with the last
one flagged. -/
def Describes (prdt : ℕ → Prd) : ℕ → ℕ → ℕ → Prop
  | 0, _, _ => False
  | left + 1, i, remaining =>
      (prdt i).size = min remaining 65536 ∧
      ((prdt i).last = true ↔ remaining ≤ 65536) ∧
      (65536 < remaining → Describes prdt left (i + 1) (remaining - 65536))

theorem describes_congr {prdt prdt' : ℕ → Prd} {left i remaining : ℕ}
    (h : Describes prdt left i remaining)
    (hsize : ∀ k, i ≤ k → (prdt' k).size = (prdt k).size)
    (hlast : ∀ k, i ≤ k → (prdt' k).last = (prdt k).last) :
    Describes prdt' left i remaining := by
  induction left generalizing i remaining with
  | zero => exact h
  | succ left ih =>
      obtain ⟨hsize', hlast', hrest⟩ := h
      refine ⟨?_, ?_, ?_⟩
      · rw [hsize i le_rfl, hsize']
      · rw [hlast i le_rfl, hlast']
      · intro hmore
        apply ih (hrest hmore)
        · intro k hk
          exact hsize k (by omega)
        · intro k hk
          exact hlast k (by omega)

theorem size_filled {remaining : ℕ} (hpos : 0 < remaining) {prd : Prd}
    (hlen : prd.len = if min remaining 65536 = 65536 then 0
      else min remaining 65536) :
    prd.size = min remaining 65536 := by
  unfold Prd.size
  rw [hlen]
  by_cases hfull : min remaining 65536 = 65536
  · rw [if_pos hfull, if_pos rfl, hfull]
  · rw [if_neg hfull, if_neg (by omega)]

/-- The table which the loop of `dma_init_transfter` leaves. -/
structure Filled (buffer : ℕ → BitVec 8) (pos : ℕ) (isRead : Bool)
    (left i remaining : ℕ) (prdt prdt' : ℕ → Prd) : Prop where
  before : ∀ k, k < i → prdt' k = prdt k
  describes : Describes prdt' left i remaining
  fetched : isRead = false → ∀ j, j < remaining →
    fetchStream left i prdt' j = buffer (pos + i * 65536 + j)

theorem fillPrdt_spec (buffer : ℕ → BitVec 8) (pos : ℕ) (isRead : Bool)
    {left i remaining : ℕ} (prdt : ℕ → Prd) (hpos : 0 < remaining)
    (hfits : remaining ≤ left * 65536) :
    ∃ prdt', fillPrdt buffer pos isRead left i remaining prdt = .ok prdt' ∧
      Filled buffer pos isRead left i remaining prdt prdt' := by
  induction left generalizing i remaining prdt with
  | zero => omega
  | succ left ih =>
      unfold fillPrdt
      rw [if_neg (by omega)]
      dsimp only
      generalize hprd : Prd.mk _ _ _ = prd
      have hlen : prd.len = if min remaining 65536 = 65536 then 0
          else min remaining 65536 := by rw [← hprd]; rfl
      have hlast : prd.last = if remaining ≤ 65536 then true else false := by
        rw [← hprd]; rfl
      have hbytes : prd.bytes = if isRead then (prdt i).bytes
          else copyBytes (prdt i).bytes 0 buffer (pos + i * 65536)
            (min remaining 65536) := by rw [← hprd]; rfl
      have hsize := size_filled hpos hlen
      have hself : Function.update prdt i prd i = prd :=
        Function.update_self i prd prdt
      have hbefore : ∀ k, k < i → Function.update prdt i prd k = prdt k :=
        fun k hk => Function.update_of_ne (by omega) prd prdt
      have hfetched : isRead = false → ∀ j, j < prd.size →
          prd.bytes j = buffer (pos + i * 65536 + j) := by
        intro hwrite j hj
        rw [hbytes, hwrite, if_neg Bool.false_ne_true, copyBytes,
          if_pos (by omega), Nat.sub_zero]
      by_cases hmore : remaining ≤ 65536
      · refine ⟨Function.update prdt i prd, ?_, ?_⟩
        · have hdone : remaining - min remaining maxTransferSizePerPrd = 0 := by
            unfold maxTransferSizePerPrd
            omega
          unfold fillPrdt
          rw [hdone, if_pos rfl]
        · refine ⟨hbefore, ⟨?_, ?_, fun hlt => ?_⟩, ?_⟩
          · rw [hself, hsize]
          · rw [hself, hlast, if_pos hmore]
            exact iff_of_true rfl hmore
          · omega
          · intro hwrite j hj
            unfold fetchStream
            rw [hself, if_pos (by omega), hfetched hwrite j (by omega)]
      · have hleft : remaining - min remaining maxTransferSizePerPrd =
            remaining - 65536 := by
          unfold maxTransferSizePerPrd
          omega
        rw [hleft]
        have hpos' : 0 < remaining - 65536 := by omega
        obtain ⟨prdt', heq, hrest⟩ :=
          ih (i := i + 1) (Function.update prdt i prd) hpos' (by omega)
        have hprd' : prdt' i = prd := by
          rw [hrest.before i (by omega), hself]
        refine ⟨prdt', heq, ⟨?_, ⟨?_, ?_, ?_⟩, ?_⟩⟩
        · intro k hk
          rw [hrest.before k (by omega), hbefore k hk]
        · rw [hprd', hsize]
        · rw [hprd', hlast, if_neg hmore]
          exact iff_of_false Bool.false_ne_true hmore
        · intro _
          exact hrest.describes
        · intro hwrite j hj
          unfold fetchStream
          rw [hprd']
          by_cases hin : j < prd.size
          · rw [if_pos hin, hfetched hwrite j hin]
          · have harg : pos + (i + 1) * 65536 + (j - prd.size) =
                pos + i * 65536 + j := by omega
            rw [if_neg hin, hlast, if_neg hmore, if_neg Bool.false_ne_true,
              hrest.fetched hwrite _ (by omega), harg]

theorem storeStream_before (stream : ℕ → BitVec 8) {left i sent : ℕ}
    (prdt : ℕ → Prd) {k : ℕ} (hk : k < i) :
    storeStream stream left i sent prdt k = prdt k := by
  induction left generalizing i sent prdt with
  | zero => rfl
  | succ left ih =>
      have hne : k ≠ i := by omega
      unfold storeStream
      dsimp only
      split
      · exact Function.update_of_ne hne _ prdt
      · rw [ih _ (by omega), Function.update_of_ne hne]

theorem copyBytes_copyBytes (dest bytes stream : ℕ → BitVec 8)
    (pos sent size p : ℕ) :
    copyBytes dest (pos + sent) (copyBytes bytes 0 stream sent size) 0 size p =
      if pos + sent ≤ p ∧ p < pos + sent + size then stream (p - pos)
      else dest p := by
  unfold copyBytes
  split
  next hp =>
    have harg : sent + (0 + (p - (pos + sent)) - 0) = p - pos := by omega
    rw [if_pos (by omega), harg]
  next => rfl

theorem ite_adjacent {a b c p : ℕ} (hab : a ≤ b) (hbc : b ≤ c)
    (x y : BitVec 8) :
    (if b ≤ p ∧ p < c then x else if a ≤ p ∧ p < b then x else y) =
      if a ≤ p ∧ p < c then x else y := by
  by_cases hb : b ≤ p
  · have hnot : ¬(a ≤ p ∧ p < b) := by omega
    have hiff : (b ≤ p ∧ p < c) ↔ (a ≤ p ∧ p < c) := by omega
    rw [if_neg hnot]
    exact if_congr hiff rfl rfl
  · have hnot : ¬(b ≤ p ∧ p < c) := by omega
    have hiff : (a ≤ p ∧ p < b) ↔ (a ≤ p ∧ p < c) := by omega
    rw [if_neg hnot]
    exact if_congr hiff rfl rfl

theorem drainPrdt_storeStream (stream : ℕ → BitVec 8) (pos : ℕ)
    {left i remaining : ℕ} {prdt : ℕ → Prd}
    (h : Describes prdt left i remaining) (buffer : ℕ → BitVec 8) (p : ℕ) :
    drainPrdt pos left i (storeStream stream left i (i * 65536) prdt) buffer p =
      if pos + i * 65536 ≤ p ∧ p < pos + i * 65536 + remaining then
        stream (p - pos)
      else buffer p := by
  induction left generalizing i remaining prdt buffer with
  | zero => exact h.elim
  | succ left ih =>
      obtain ⟨hsize, hlast, hrest⟩ := h
      unfold storeStream drainPrdt
      dsimp only
      by_cases hmore : remaining ≤ 65536
      · rw [if_pos (hlast.2 hmore), Function.update_self,
          if_pos (hlast.2 hmore)]
        show copyBytes buffer (pos + i * 65536)
          (copyBytes (prdt i).bytes 0 stream (i * 65536) (prdt i).size) 0
          (prdt i).size p = _
        rw [copyBytes_copyBytes, hsize, Nat.min_eq_left hmore]
      · have hfirst : ¬(prdt i).last = true := fun hl => hmore (hlast.1 hl)
        have hfull : (prdt i).size = 65536 := by omega
        have hnext : i * 65536 + 65536 = (i + 1) * 65536 := by omega
        rw [if_neg hfirst, storeStream_before stream _ (by omega),
          Function.update_self, if_neg hfirst]
        rw [hfull, hnext, ih (describes_congr (hrest (by omega)) ?_ ?_)]
        · show (if _ then _ else copyBytes buffer (pos + i * 65536)
            (copyBytes (prdt i).bytes 0 stream (i * 65536) 65536) 0
            (prdt i).size p) = _
          have hend : pos + (i + 1) * 65536 + (remaining - 65536) =
              pos + i * 65536 + remaining := by
            rw [← hnext]
            omega
          rw [hfull, copyBytes_copyBytes, hend,
            Nat.add_assoc pos (i * 65536) 65536, hnext]
          apply ite_adjacent
          · rw [← hnext]
            omega
          · rw [← hend]
            exact Nat.le_add_right _ _
        · intro k hk
          rw [Function.update_of_ne (by omega)]
        · intro k hk
          rw [Function.update_of_ne (by omega)]

/-! ## Read requests -/

theorem tryReadDma_spec {s : State} {pos count : ℕ}
    (hprdt : Describes s.prdt prdCount 0 (count * 512)) :
    ReadOutcome s (tryReadDma s pos).state (tryReadDma s pos).ret pos count
      (fun i => s.regs.address + i) := by
  unfold tryReadDma
  split
  next => exact ⟨rfl, fun _ _ => rfl⟩
  next rest hloop =>
    refine ⟨rfl, fun p => ?_⟩
    have hdrain := drainPrdt_storeStream
      (sectorStream s.disk s.regs.address) pos hprdt s.buffer p
    simp only [Nat.zero_mul, Nat.add_zero] at hdrain
    exact hdrain
  next => exact ⟨rfl, fun _ _ => rfl⟩

/-- The state in which the driver issues a command. -/
def commandState (bus : Bus) (s : State) (prdt : ℕ → Prd) (lba count : ℕ) :
    State :=
  { s with
    regs := commandRegs bus s.regs lba count
    prdt := prdt
    requests := s.requests + 1 }

theorem tryRead_pio (bus : Bus) (s : State) (pos lba count : ℕ) :
    tryRead bus s pos false lba count =
      let r := tryReadPio count 0 pos (commandState bus s s.prdt lba count)
      .ok ⟨r.1, false, r.2⟩ :=
  rfl

theorem dmaInitTransfer_spec (s : State) (pos : ℕ) (isRead : Bool)
    {count : ℕ} (hpos : 0 < count) (hcount : count ≤ 256) :
    ∃ prdt, dmaInitTransfer s pos (count * sectorSize) isRead =
        .ok { s with prdt := prdt } ∧
      Filled s.buffer pos isRead prdCount 0 (count * 512) s.prdt prdt := by
  obtain ⟨prdt, heq, hfilled⟩ := fillPrdt_spec s.buffer pos isRead
    (i := 0) s.prdt (show 0 < count * 512 by omega)
    (show count * 512 ≤ prdCount * 65536 by unfold prdCount; omega)
  refine ⟨prdt, ?_, hfilled⟩
  have hassert : count * sectorSize ≤ maxSectorsPerTransfer * sectorSize :=
    Nat.mul_le_mul_right sectorSize hcount
  unfold dmaInitTransfer cAssert
  rw [if_pos (decide_eq_true hassert)]
  show (fillPrdt s.buffer pos isRead prdCount 0 (count * 512) s.prdt >>= _) = _
  rw [heq]
  rfl

theorem tryRead_dma (bus : Bus) {s : State} {pos lba count : ℕ}
    {prdt : ℕ → Prd}
    (h : dmaInitTransfer { s with requests := s.requests + 1 } pos
      (count * sectorSize) true =
      .ok { s with requests := s.requests + 1, prdt := prdt }) :
    tryRead bus s pos true lba count =
      let r := tryReadDma (commandState bus s prdt lba count) pos
      .ok ⟨r.ret, false, r.state⟩ := by
  show (dmaInitTransfer { s with requests := s.requests + 1 } pos
      (count * sectorSize) true >>= _) = _
  rw [h]
  rfl

theorem tryRead_spec (bus : Bus) (s : State) (pos : ℕ) (canDma : Bool)
    {lba count : ℕ} (hlba : lba < 4294967296) (hpos : 0 < count)
    (hcount : count ≤ 256) :
    ∃ result, tryRead bus s pos canDma lba count = .ok result ∧
      ReadOutcome s result.state result.ret pos count
        (fun i => lba % 268435456 + i) := by
  have haddress := address_commandRegs bus s.regs hlba count
  have hinto : ∀ prdt, ReadsInto s (commandState bus s prdt lba count) pos
      count := fun prdt => ⟨rfl, fun _ _ => rfl⟩
  cases canDma with
  | false =>
      have hpio : ReadOutcome _ _ _ pos count _ := tryReadPio_spec
        (show tryReadPio count 0 pos (commandState bus s s.prdt lba count) =
          (_, _) from rfl)
      refine ⟨_, tryRead_pio bus s pos lba count, ?_⟩
      have houtcome := (hinto s.prdt).outcome hpio
      simp only [commandState, haddress, Nat.zero_add] at houtcome
      exact houtcome
  | true =>
      obtain ⟨prdt, hinit, hfilled⟩ := dmaInitTransfer_spec
        { s with requests := s.requests + 1 } pos true hpos hcount
      refine ⟨_, tryRead_dma bus hinit, ?_⟩
      have hdma : ReadOutcome _ _ _ pos count _ :=
        tryReadDma_spec (s := commandState bus s prdt lba count)
          hfilled.describes
      have houtcome := (hinto prdt).outcome hdma
      simp only [commandState, haddress] at houtcome
      exact houtcome

/-! ## Retries and batches -/

section Batches

variable (bus : Bus) (canDma : Bool)

theorem retry_spec {attempt : State → Except Fault TryResult}
    {P : Except Errno Unit → State → State → Prop}
    (hattempt : ∀ s, ∃ result, attempt s = .ok result ∧
      P result.ret s result.state)
    (hreset : ∀ e s s' regs, P (.error e) s s' →
      P (.error e) s { s' with regs := regs })
    (hagain : ∀ e ret s s₁ s₂, P (.error e) s s₁ → P ret s₁ s₂ → P ret s s₂)
    (left : ℕ) (s : State) :
    ∃ ret s', retry bus canDma attempt left s = .ok (ret, s') ∧
      P ret s s' := by
  induction left generalizing s with
  | zero =>
      obtain ⟨⟨ret, crc, s'⟩, heq, hP⟩ := hattempt s
      refine ⟨ret, s', ?_, hP⟩
      unfold retry
      rw [heq]
      rfl
  | succ left ih =>
      obtain ⟨⟨ret, crc, s₁⟩, heq, hP⟩ := hattempt s
      unfold retry
      rw [heq]
      cases ret with
      | ok => exact ⟨.ok (), s₁, rfl, hP⟩
      | error e =>
          show ∃ ret s', retry bus canDma attempt left
            (if !crc && canDma then { s₁ with regs := bus.resetRegs }
              else s₁) = .ok (ret, s') ∧ P ret s s'
          split
          next =>
            obtain ⟨ret, s', hretry, hP'⟩ :=
              ih { s₁ with regs := bus.resetRegs }
            exact ⟨ret, s', hretry,
              hagain e ret s _ s' (hreset e s s₁ _ hP) hP'⟩
          next =>
            obtain ⟨ret, s', hretry, hP'⟩ := ih s₁
            exact ⟨ret, s', hretry, hagain e ret s s₁ s' hP hP'⟩

/-- The rules by which the batches of a transfer join: `P` is about a batch
and `Q` about the rest of the transfer. -/
structure Joins (P Q : ℕ → ℕ → ℕ → Except Errno Unit → State → State → Prop)
    (valid : ℕ → ℕ → Prop) : Prop where
  reset : ∀ lba pos count e s s' regs, P lba pos count (.error e) s s' →
    P lba pos count (.error e) s { s' with regs := regs }
  again : ∀ lba pos count e ret s s₁ s₂, P lba pos count (.error e) s s₁ →
    P lba pos count ret s₁ s₂ → P lba pos count ret s s₂
  done : ∀ lba pos s, Q lba pos 0 (.ok ()) s s
  failed : ∀ lba pos remaining e s s', valid lba remaining →
    P lba pos (min remaining 256) (.error e) s s' →
    Q lba pos remaining (.error e) s s'
  next : ∀ lba pos remaining ret s s₁ s₂, valid lba remaining →
    P lba pos (min remaining 256) (.ok ()) s s₁ →
    Q (wrap (lba + min remaining 256)) (pos + min remaining 256 * 512)
      (remaining - min remaining 256) ret s₁ s₂ →
    Q lba pos remaining ret s s₂
  valid : ∀ lba remaining, valid lba remaining → 0 < remaining →
    valid (wrap (lba + min remaining 256)) (remaining - min remaining 256)

theorem transferSectors_spec
    {attempt : State → ℕ → ℕ → ℕ → Except Fault TryResult}
    {P Q : ℕ → ℕ → ℕ → Except Errno Unit → State → State → Prop}
    {valid : ℕ → ℕ → Prop} (hjoins : Joins P Q valid)
    (hattempt : ∀ s pos lba remaining, valid lba remaining → 0 < remaining →
      ∃ result, attempt s pos lba (min remaining 256) = .ok result ∧
        P lba pos (min remaining 256) result.ret s result.state)
    {fuel remaining lba : ℕ} (hfuel : remaining ≤ fuel) (pos : ℕ)
    (hvalid : valid lba remaining) (s : State) :
    ∃ ret s', transferSectors bus canDma attempt fuel remaining lba pos s =
        .ok (ret, s') ∧ Q lba pos remaining ret s s' := by
  induction fuel generalizing remaining lba pos s with
  | zero =>
      have hzero : remaining = 0 := by omega
      subst hzero
      exact ⟨.ok (), s, rfl, hjoins.done lba pos s⟩
  | succ fuel ih =>
      unfold transferSectors
      by_cases hzero : remaining = 0
      · subst hzero
        exact ⟨.ok (), s, rfl, hjoins.done lba pos s⟩
      · rw [if_neg hzero]
        have hpos : 0 < remaining := by omega
        obtain ⟨ret, s₁, hretry, hP⟩ := retry_spec bus canDma
          (fun s => hattempt s pos lba remaining hvalid hpos)
          (hjoins.reset lba pos _) (hjoins.again lba pos _) maxRetries s
        have hretry' : retry bus canDma
            (fun s => attempt s pos lba (min remaining maxSectorsPerTransfer))
            maxRetries s = .ok (ret, s₁) := hretry
        dsimp only
        rw [hretry']
        cases ret with
        | error e =>
            exact ⟨.error e, s₁, rfl,
              hjoins.failed lba pos remaining e s s₁ hvalid hP⟩
        | ok =>
            have hless : remaining - min remaining 256 ≤ fuel := by omega
            obtain ⟨ret, s₂, hrest, hQ⟩ := ih hless
              (pos + min remaining 256 * 512)
              (hjoins.valid lba remaining hvalid hpos) s₁
            exact ⟨ret, s₂, hrest,
              hjoins.next lba pos remaining ret s s₁ s₂ hvalid hP hQ⟩

end Batches

end Ata
end Yjkos
