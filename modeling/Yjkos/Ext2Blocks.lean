import Yjkos.Disk
import Yjkos.Ext2Mount

/-!
# Reading filesystem blocks

`ldisk_read_exact` of `kernel/io/disk.c` and `read_blocks` of
`kernel/fs/fs_ext2.c`, down to the bytes of the disk.  Addresses and counts
are multiplied by the number of sectors in a block before they are compared
with the size of the partition, and the products wrap at 32 bits.
-/

namespace Yjkos
namespace Disk

/-- A `struct pdisk` with the bytes of the disk.  `read` is what `ops->read`
returns; a read which does not fail copies the sectors. -/
structure Pdisk where
  blockSize : ℕ
  content : ℕ → BitVec 8
  read : Request → ℤ

/-- The buffer after some requests. -/
def Pdisk.fill (pdisk : Pdisk) (buf : ℕ → BitVec 8) :
    List Request → ℕ → BitVec 8
  | [] => buf
  | q :: rest =>
      pdisk.fill
        (fun i =>
          if i < q.blockCount * pdisk.blockSize then
            pdisk.content (q.blockAddr * pdisk.blockSize + i)
          else buf i)
        rest

def einval : ℤ := 22

/-- Gives what is returned and the buffer. -/
def ldiskReadExact (pdisk : Pdisk) (self : Ldisk) (buf : ℕ → BitVec 8)
    (blockAddr blockCount : ℕ) : ℤ × (ℕ → BitVec 8) :=
  let ret := (ldiskRead pdisk.read self blockAddr blockCount).1
  let requests := (ldiskRead pdisk.read self blockAddr blockCount).2
  let buf := pdisk.fill buf requests
  if ret < 0 then (ret, buf)
  else if toSize ret ≠ blockCount then (-einval, buf)
  else (0, buf)

/-- The request is not clipped. -/
def Unclipped (self : Ldisk) (blockAddr blockCount : ℕ) : Prop :=
  if self.blockCount = 0 then
    blockAddr ≠ 0 ∧ blockAddr + blockCount ≤ 4294967296
  else blockAddr + blockCount ≤ self.blockCount

instance (self : Ldisk) (blockAddr blockCount : ℕ) :
    Decidable (Unclipped self blockAddr blockCount) :=
  inferInstanceAs (Decidable (ite _ _ _))

section Exact

variable {pdisk : Pdisk} {self : Ldisk} {buf : ℕ → BitVec 8}
  {blockAddr blockCount : ℕ}

theorem toAbsBlockRange_unclipped (hstart : self.startblockaddr < 4294967296)
    (hcount : self.blockCount < 4294967296) (haddr : blockAddr < 4294967296)
    (hpos : blockCount ≠ 0) (h : Unclipped self blockAddr blockCount) :
    toAbsBlockRange self blockAddr blockCount =
      (wrap (self.startblockaddr + blockAddr), blockCount) := by
  unfold Unclipped at h
  split at h
  next hzero =>
    have havailable : wrap (4294967295 - blockAddr + 1) =
        4294967296 - blockAddr := by
      rw [wrap_of_lt (by omega)]
      omega
    rw [toAbsBlockRange_of_zero hstart hzero haddr, havailable,
      Nat.min_eq_left (by omega)]
  next =>
    rw [toAbsBlockRange_of_lt hstart hcount (by omega),
      Nat.min_eq_left (by omega)]

theorem toAbsBlockRange_clipped (hstart : self.startblockaddr < 4294967296)
    (hcount : self.blockCount < 4294967296) (haddr : blockAddr < 4294967296)
    (hpos : blockCount ≠ 0) (h : ¬Unclipped self blockAddr blockCount) :
    (toAbsBlockRange self blockAddr blockCount).2 < 4294967296 ∧
      (toAbsBlockRange self blockAddr blockCount).2 ≠ blockCount := by
  unfold Unclipped at h
  split at h
  next hzero =>
    rw [toAbsBlockRange_of_zero hstart hzero haddr]
    by_cases hfirst : blockAddr = 0
    · have havailable : wrap (4294967295 - blockAddr + 1) = 0 := by
        unfold wrap
        omega
      rw [havailable, Nat.min_zero]
      dsimp only
      omega
    · have havailable : wrap (4294967295 - blockAddr + 1) =
          4294967296 - blockAddr := by
        rw [wrap_of_lt (by omega)]
        omega
      rw [havailable]
      dsimp only
      omega
  next hsome =>
    rcases Nat.lt_or_ge blockAddr self.blockCount with hlt | hge
    · rw [toAbsBlockRange_of_lt hstart hcount hlt]
      dsimp only
      omega
    · rw [toAbsBlockRange_of_le hstart hcount (by omega) hge]
      dsimp only
      omega

/-- `ldisk_read` in terms of the clipped request. -/
theorem transfer_eq {op : Request → ℤ} {first final : ℕ}
    (h : toAbsBlockRange self blockAddr blockCount = (first, final)) :
    transfer op self blockAddr blockCount =
      if final = 0 then (0, [])
      else if op ⟨first, final⟩ < 0 then
        (op ⟨first, final⟩, [⟨first, final⟩])
      else (toSigned final, [⟨first, final⟩]) := by
  unfold transfer
  rw [h]
  dsimp only
  by_cases hfinal : final = 0
  · rw [if_neg (not_not.2 hfinal), if_pos hfinal, hfinal]
    simp [toSigned]
  · rw [if_pos hfinal, if_neg hfinal]

/-- Nothing is read when the request is clipped away. -/
theorem ldiskReadExact_empty {first : ℕ}
    (h : toAbsBlockRange self blockAddr blockCount = (first, 0)) :
    ldiskReadExact pdisk self buf blockAddr blockCount =
      if blockCount = 0 then (0, buf) else (-einval, buf) := by
  have hread : ldiskRead pdisk.read self blockAddr blockCount = (0, []) :=
    transfer_zero h
  have hsize : toSize 0 = 0 := by simp [toSize]
  unfold ldiskReadExact
  rw [hread]
  dsimp only [Pdisk.fill]
  rw [if_neg (lt_irrefl 0), hsize]
  by_cases hnone : blockCount = 0
  · rw [if_pos hnone, if_neg (not_not.2 hnone.symm)]
  · rw [if_neg hnone, if_pos (Ne.symm hnone)]

theorem ldiskReadExact_none (hstart : self.startblockaddr < 4294967296)
    (hcount : self.blockCount < 4294967296)
    (haddr : blockAddr < 4294967296) (hnone : blockCount = 0) :
    ldiskReadExact pdisk self buf blockAddr blockCount = (0, buf) := by
  obtain ⟨first, hrange⟩ :=
    toAbsBlockRange_of_none hstart hcount haddr hnone
  rw [ldiskReadExact_empty hrange, if_pos hnone]

/-- A read of sectors, once the request has been clipped. -/
theorem ldiskReadExact_eq {first final : ℕ}
    (h : toAbsBlockRange self blockAddr blockCount = (first, final))
    (hfinal : final ≠ 0) :
    ldiskReadExact pdisk self buf blockAddr blockCount =
      let buf' := pdisk.fill buf [⟨first, final⟩]
      if pdisk.read ⟨first, final⟩ < 0 then
        (pdisk.read ⟨first, final⟩, buf')
      else if toSigned final < 0 then (toSigned final, buf')
      else if toSize (toSigned final) ≠ blockCount then (-einval, buf')
      else (0, buf') := by
  have hread : ldiskRead pdisk.read self blockAddr blockCount = _ :=
    transfer_eq h
  rw [if_neg hfinal] at hread
  unfold ldiskReadExact
  rw [hread]
  by_cases hop : pdisk.read ⟨first, final⟩ < 0
  · simp only [if_pos hop]
  · simp only [if_neg hop]

theorem toSize_toSigned {x : ℕ} (hx : x < 4294967296) :
    toSize (toSigned x) = x := by
  unfold toSize toSigned
  split <;> omega

theorem ldiskReadExact_refused (hstart : self.startblockaddr < 4294967296)
    (hcount : self.blockCount < 4294967296) (haddr : blockAddr < 4294967296)
    (hpos : blockCount ≠ 0) (h : ¬Unclipped self blockAddr blockCount) :
    (ldiskReadExact pdisk self buf blockAddr blockCount).1 < 0 := by
  obtain ⟨hlt, hne⟩ :=
    toAbsBlockRange_clipped hstart hcount haddr hpos h
  cases hrange : toAbsBlockRange self blockAddr blockCount with
  | mk first final =>
      rw [hrange] at hlt hne
      dsimp only at hlt hne
      by_cases hfinal : final = 0
      · subst hfinal
        rw [ldiskReadExact_empty hrange, if_neg hpos]
        show -einval < 0
        decide
      · rw [ldiskReadExact_eq hrange hfinal, toSize_toSigned hlt]
        dsimp only
        split
        next hop => exact hop
        next =>
          split
          next hsigned => exact hsigned
          next =>
            show -einval < 0
            decide

/-- A read which is not clipped returns 0, with the sectors in the buffer,
unless the disk fails or the count is negative as a signed number. -/
theorem ldiskReadExact_unclipped (hstart : self.startblockaddr < 4294967296)
    (hcount : self.blockCount < 4294967296) (haddr : blockAddr < 4294967296)
    (hlt : blockCount < 4294967296) (hpos : blockCount ≠ 0)
    (h : Unclipped self blockAddr blockCount) :
    if pdisk.read ⟨wrap (self.startblockaddr + blockAddr), blockCount⟩ < 0 ∨
        2147483648 ≤ blockCount then
      (ldiskReadExact pdisk self buf blockAddr blockCount).1 < 0
    else
      ldiskReadExact pdisk self buf blockAddr blockCount =
        (0, pdisk.fill buf
          [⟨wrap (self.startblockaddr + blockAddr), blockCount⟩]) := by
  have hrange := toAbsBlockRange_unclipped hstart hcount haddr hpos h
  rw [ldiskReadExact_eq hrange hpos, toSize_toSigned hlt]
  have hsigned : toSigned blockCount < 0 ↔ 2147483648 ≤ blockCount := by
    unfold toSigned
    split <;> omega
  dsimp only
  split
  next hor =>
    split
    next hop => exact hop
    next hop =>
      have hnegative := hsigned.2 (hor.resolve_left hop)
      rw [if_pos hnegative]
      exact hnegative
  next hor =>
    rw [not_or] at hor
    rw [if_neg hor.1, if_neg (fun hneg => hor.2 (hsigned.1 hneg)),
      if_neg (not_not.2 rfl)]

end Exact

end Disk

namespace Ext2

open Disk

/-- `read_blocks` with the bytes of the disk. -/
def readBlockBytes (pdisk : Pdisk) (disk : Ldisk) (blocksize : ℤ)
    (buf : ℕ → BitVec 8) (blockAddr blkcount : ℕ) :
    Except Fault (ℤ × (ℕ → BitVec 8)) := do
  let blocksize := toSize blocksize
  cAssert (blocksize % pdisk.blockSize = 0)
    "(self->blocksize % self->disk->physdisk->block_size) == 0"
  .ok (ldiskReadExact pdisk disk buf
    (wrap (blockAddr * (blocksize / pdisk.blockSize)))
    (wrap (blkcount * (blocksize / pdisk.blockSize))))

/-- A disk as the rest of the filesystem sees it. -/
def diskReadOf (errno : ℤ → Errno) (pdisk : Pdisk) (disk : Ldisk)
    (buf : ℕ → BitVec 8) : DiskRead :=
  fun blockAddr blockCount =>
    let r := ldiskReadExact pdisk disk buf blockAddr blockCount
    if r.1 < 0 then .error (errno r.1) else .ok r.2

/-- For every disk, a read fails or fills the buffer with the blocks. -/
def ReadsBlocks (blockSize : ℕ) (disk : Ldisk) (blocksize : ℤ)
    (blockAddr blkcount : ℕ) : Prop :=
  ∀ content read buf, ∃ r,
    readBlockBytes ⟨blockSize, content, read⟩ disk blocksize buf blockAddr
        blkcount = .ok r ∧
      (r.1 < 0 ∨ ∀ i, i < blkcount * toSize blocksize →
        blockAddr * toSize blocksize + i < disk.blockCount * blockSize ∧
          r.2 i = content (disk.startblockaddr * blockSize +
            (blockAddr * toSize blocksize + i)))

/-- The products do not wrap, or the wrapped request is refused. -/
def Addressable (sectors : ℕ) (disk : Ldisk) (blockAddr blkcount : ℕ) :
    Prop :=
  blkcount * sectors = 0 ∨
  (wrap (blkcount * sectors) ≠ 0 ∧
    (2147483648 ≤ wrap (blkcount * sectors) ∨
      ¬Unclipped disk (wrap (blockAddr * sectors))
        (wrap (blkcount * sectors)))) ∨
  (blockAddr * sectors < 4294967296 ∧ blkcount * sectors < 4294967296 ∧
    disk.blockCount ≠ 0 ∧
    disk.startblockaddr + blockAddr * sectors < 4294967296)

section Blocks

variable {blockSize : ℕ} {disk : Ldisk} {blocksize : ℤ}
  {blockAddr blkcount : ℕ}

theorem readBlockBytes_eq (hdvd : blockSize ∣ toSize blocksize)
    (content : ℕ → BitVec 8) (read : Request → ℤ) (buf : ℕ → BitVec 8) :
    readBlockBytes ⟨blockSize, content, read⟩ disk blocksize buf blockAddr
        blkcount =
      .ok (ldiskReadExact ⟨blockSize, content, read⟩ disk buf
        (wrap (blockAddr * (toSize blocksize / blockSize)))
        (wrap (blkcount * (toSize blocksize / blockSize)))) := by
  have hassert : decide (toSize blocksize % blockSize = 0) = true :=
    decide_eq_true (Nat.mod_eq_zero_of_dvd hdvd)
  unfold readBlockBytes
  dsimp only
  rw [hassert]
  rfl

theorem readsBlocks_of_addressable
    (hstart : disk.startblockaddr < 4294967296)
    (hcount : disk.blockCount < 4294967296)
    (hdvd : blockSize ∣ toSize blocksize)
    (h : Addressable (toSize blocksize / blockSize) disk blockAddr blkcount) :
    ReadsBlocks blockSize disk blocksize blockAddr blkcount := by
  intro content read buf
  refine ⟨_, readBlockBytes_eq hdvd content read buf, ?_⟩
  have hsize : toSize blocksize / blockSize * blockSize = toSize blocksize :=
    Nat.div_mul_cancel hdvd
  generalize toSize blocksize / blockSize = sectors at h hsize ⊢
  rw [← hsize]
  have haddr : wrap (blockAddr * sectors) < 4294967296 := wrap_lt _
  have hwrap : wrap (blkcount * sectors) < 4294967296 := wrap_lt _
  have hcases : blkcount * sectors = 0 ∨ _ ∨ _ := h
  by_cases hnone : blkcount * sectors = 0
  · right
    intro i hi
    rw [← Nat.mul_assoc, hnone, Nat.zero_mul] at hi
    exact absurd hi (Nat.not_lt_zero i)
  · rw [or_iff_right hnone] at hcases
    have hpos : wrap (blkcount * sectors) ≠ 0 := by
      rcases hcases with ⟨hpos, -⟩ | ⟨-, hlt, -⟩
      · exact hpos
      · rw [wrap_of_lt hlt]
        exact hnone
    by_cases hclip : Unclipped disk (wrap (blockAddr * sectors))
      (wrap (blkcount * sectors))
    · have hread := @ldiskReadExact_unclipped ⟨blockSize, content, read⟩ disk
        buf _ _ hstart hcount haddr hwrap hpos hclip
      split at hread
      next => exact Or.inl hread
      next hgood =>
        rw [not_or] at hgood
        right
        intro i hi
        rcases hcases with ⟨-, hlarge | hclipped⟩ |
          ⟨hfirst, hlast, hsome, hfits⟩
        · exact absurd hlarge hgood.2
        · exact absurd hclip hclipped
        · rw [wrap_of_lt hfirst, wrap_of_lt hlast] at hread hclip
          rw [wrap_of_lt hfits] at hread
          rw [wrap_of_lt hfirst, wrap_of_lt hlast, hread]
          rw [← Nat.mul_assoc] at hi ⊢
          have hinside : blockAddr * sectors + blkcount * sectors ≤
              disk.blockCount := by
            unfold Unclipped at hclip
            rwa [if_neg hsome] at hclip
          refine ⟨?_, ?_⟩
          · have hbound := Nat.mul_le_mul_right blockSize hinside
            rw [Nat.add_mul] at hbound
            omega
          · show (if i < blkcount * sectors * blockSize then
              content ((disk.startblockaddr + blockAddr * sectors) *
                blockSize + i) else buf i) = _
            rw [if_pos hi, Nat.add_mul, Nat.add_assoc]
    · left
      exact ldiskReadExact_refused hstart hcount haddr hpos hclip

/-- The last byte of the blocks is on the partition. -/
theorem ReadsBlocks.inside {sectors : ℕ}
    (hsectors : sectors * blockSize = toSize blocksize)
    (hpos : blkcount * sectors * blockSize ≠ 0)
    (h : ∀ i, i < blkcount * toSize blocksize →
      blockAddr * toSize blocksize + i < disk.blockCount * blockSize) :
    blockAddr * sectors + blkcount * sectors ≤ disk.blockCount := by
  have hlast := h (blkcount * sectors * blockSize - 1) (by
    rw [← hsectors, ← Nat.mul_assoc]
    omega)
  rw [← hsectors, ← Nat.mul_assoc] at hlast
  have hle : (blockAddr * sectors + blkcount * sectors) * blockSize ≤
      disk.blockCount * blockSize := by
    rw [Nat.add_mul]
    omega
  have hsize : 0 < blockSize := Nat.pos_of_ne_zero
    (fun hzero => hpos (by rw [hzero, Nat.mul_zero]))
  exact Nat.le_of_mul_le_mul_right hle hsize

theorem addressable_of_readsBlocks
    (hstart : disk.startblockaddr < 4294967296)
    (hcount : disk.blockCount < 4294967296)
    (hsector : 0 < blockSize) (hdvd : blockSize ∣ toSize blocksize)
    (h : ReadsBlocks blockSize disk blocksize blockAddr blkcount) :
    Addressable (toSize blocksize / blockSize) disk blockAddr blkcount := by
  have hsize : toSize blocksize / blockSize * blockSize = toSize blocksize :=
    Nat.div_mul_cancel hdvd
  by_contra hnot
  generalize hsectors : toSize blocksize / blockSize = sectors at hsize hnot
  -- the byte which the exact product addresses differs from all others
  obtain ⟨content, hone, hzero⟩ : ∃ content : ℕ → BitVec 8,
      content ((disk.startblockaddr + blockAddr * sectors) * blockSize) = 1 ∧
        ∀ i, i ≠ (disk.startblockaddr + blockAddr * sectors) * blockSize →
          content i = 0 :=
    ⟨fun i => if i = (disk.startblockaddr + blockAddr * sectors) * blockSize
      then 1 else 0, if_pos rfl, fun i hi => if_neg hi⟩
  obtain ⟨r, hrun, hright⟩ := h content (fun _ => 0) (fun _ => 0)
  rw [readBlockBytes_eq hdvd, Except.ok.injEq, hsectors] at hrun
  unfold Addressable at hnot
  rw [not_or, not_or] at hnot
  obtain ⟨hnone, hgranted, hwraps⟩ := hnot
  have haddr : wrap (blockAddr * sectors) < 4294967296 := wrap_lt _
  have hwrap : wrap (blkcount * sectors) < 4294967296 := wrap_lt _
  have hinside : (∀ i, i < blkcount * toSize blocksize →
      blockAddr * toSize blocksize + i < disk.blockCount * blockSize) →
      blockAddr * sectors + blkcount * sectors ≤ disk.blockCount :=
    ReadsBlocks.inside hsize (Nat.mul_ne_zero hnone hsector.ne')
  by_cases hpos : wrap (blkcount * sectors) = 0
  · rw [ldiskReadExact_none hstart hcount haddr hpos] at hrun
    subst hrun
    have hle := hinside (fun i hi =>
      (hright.resolve_left (lt_irrefl _) i hi).1)
    rw [wrap_of_lt (by omega)] at hpos
    exact hnone hpos
  · rw [and_iff_right hpos, not_or, not_not] at hgranted
    have hread := @ldiskReadExact_unclipped
      ⟨blockSize, content, fun _ => 0⟩ disk (fun _ => 0) _ _ hstart hcount haddr
      hwrap hpos hgranted.2
    rw [if_neg (not_or.2 ⟨lt_irrefl _, hgranted.1⟩), hrun] at hread
    subst hread
    have hall := hright.resolve_left (lt_irrefl _)
    have hle := hinside (fun i hi => (hall i hi).1)
    have hbyte := (hall 0 (by
      rw [← hsize, ← Nat.mul_assoc]
      exact Nat.pos_of_ne_zero
        (Nat.mul_ne_zero hnone hsector.ne'))).2
    have hexact : disk.startblockaddr * blockSize +
        (blockAddr * toSize blocksize + 0) =
          (disk.startblockaddr + blockAddr * sectors) * blockSize := by
      rw [← hsize, Nat.add_zero, ← Nat.mul_assoc, Nat.add_mul]
    rw [hexact, hone] at hbyte
    have hfill : content (wrap (disk.startblockaddr +
        wrap (blockAddr * sectors)) * blockSize + 0) = 1 := by
      rw [← hbyte]
      exact (if_pos (Nat.mul_pos (Nat.pos_of_ne_zero hpos) hsector)).symm
    rw [hzero] at hfill
    · exact absurd hfill (by decide)
    · have hfirst : wrap (blockAddr * sectors) = blockAddr * sectors :=
        wrap_of_lt (by omega)
      rw [Nat.add_zero, hfirst]
      intro heq
      have hsame := Nat.eq_of_mul_eq_mul_right hsector heq
      have hlt := wrap_lt (disk.startblockaddr + blockAddr * sectors)
      rw [hsame] at hlt
      exact hwraps ⟨by omega, by omega, by omega, hlt⟩

/-- The right bytes are read as long as the products do not wrap, or wrap to
a request which is refused. -/
theorem readBlocks_exact_iff (blockAddr blkcount : ℕ)
    (hstart : disk.startblockaddr < 4294967296)
    (hcount : disk.blockCount < 4294967296)
    (hsector : 0 < blockSize) (hdvd : blockSize ∣ toSize blocksize) :
    ReadsBlocks blockSize disk blocksize blockAddr blkcount ↔
      Addressable (toSize blocksize / blockSize) disk blockAddr blkcount :=
  ⟨addressable_of_readsBlocks hstart hcount hsector hdvd,
    readsBlocks_of_addressable hstart hcount hdvd⟩

end Blocks

theorem toSize_1024 : toSize 1024 = 1024 := by
  simp [toSize]

/-- Two blocks in a partition of 64 sectors. -/
theorem readBlocks_exact_two :
    ReadsBlocks 512 ⟨2048, 64⟩ 1024 3 2 := by
  have h := @readBlocks_exact_iff 512 ⟨2048, 64⟩ 1024 3 2 (by decide)
    (by decide) (by decide) (by rw [toSize_1024]; decide)
  apply h.2
  rw [toSize_1024]
  exact Or.inr (Or.inr ⟨by decide, by decide, by decide, by decide⟩)

/-- Block 2147483648 gives the first block of the partition. -/
theorem far_block_wraps :
    ¬ReadsBlocks 512 ⟨2048, 64⟩ 1024 2147483648 1 := by
  intro h
  have haddressable := addressable_of_readsBlocks (by decide) (by decide)
    (by decide) (by rw [toSize_1024]; decide) h
  rw [toSize_1024] at haddressable
  revert haddressable
  unfold Addressable
  decide

end Ext2
end Yjkos
