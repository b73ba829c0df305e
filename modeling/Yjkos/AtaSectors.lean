import Yjkos.AtaWrite

/-!
# The sectors of a transfer

`read_sectors` and `write_sectors` as a whole.  A read moves, for every
request, the sectors which its batches address, whatever fails on the way.
These are the sectors of the request as long as every batch starts below the
28 bits which the registers have.
-/

namespace Yjkos
namespace Ata

/-! ## Reading -/

/-- The sector which the batches of a request address for its piece `i`. -/
def addressed (lba i : ℕ) : ℕ := (lba + i / 256 * 256) % 268435456 + i % 256

theorem addressed_first {lba i : ℕ} (hi : i < 256) :
    addressed lba i = lba % 268435456 + i := by
  unfold addressed
  rw [Nat.div_eq_of_lt hi, Nat.mod_eq_of_lt hi, Nat.zero_mul, Nat.add_zero]

theorem addressed_next (lba i : ℕ) :
    addressed (wrap (lba + 256)) i = addressed lba (256 + i) := by
  unfold addressed wrap
  have hdiv : (256 + i) / 256 = 1 + i / 256 := by omega
  have hmod : (256 + i) % 256 = i % 256 := by omega
  rw [hdiv, hmod]
  omega

theorem Reads.congr {s s' : State} {pos count : ℕ} {sector sector' : ℕ → ℕ}
    (h : Reads s s' pos count sector)
    (heq : ∀ i, i < count → sector i = sector' i) :
    Reads s s' pos count sector' := by
  refine ⟨h.disk, ?_⟩
  intro p
  rw [h.buffer p]
  split
  next hp => rw [heq _ (by omega)]
  next => rfl

theorem ReadOutcome.congr {s s' : State} {ret : Except Errno Unit}
    {pos count : ℕ} {sector sector' : ℕ → ℕ}
    (h : ReadOutcome s s' ret pos count sector)
    (heq : ∀ i, i < count → sector i = sector' i) :
    ReadOutcome s s' ret pos count sector' := by
  cases ret with
  | ok => exact Reads.congr h heq
  | error e => exact h

theorem readJoins :
    Joins
      (fun lba pos count ret s s' => ReadOutcome s s' ret pos count
        (fun i => lba % 268435456 + i))
      (fun lba pos count ret s s' => ReadOutcome s s' ret pos count
        (addressed lba))
      (fun lba _ => lba < 4294967296) where
  reset _ _ _ _ _ _ _ h := ⟨h.disk, h.buffer⟩
  again _ _ _ _ _ _ _ _ h h' := ReadsInto.outcome h h'
  done lba pos s := by
    refine ⟨rfl, fun p => ?_⟩
    have hnot : ¬(pos ≤ p ∧ p < pos + 0 * 512) := by omega
    rw [if_neg hnot]
  failed lba pos remaining e s s' _ h := by
    have hinto : ReadsInto s s' pos (min remaining 256) := h
    refine ⟨hinto.disk, fun p hp => hinto.buffer p ?_⟩
    have hle : min remaining 256 * 512 ≤ remaining * 512 :=
      Nat.mul_le_mul_right 512 (Nat.min_le_left remaining 256)
    exact hp.imp_right (le_trans (Nat.add_le_add_left hle pos))
  next lba pos remaining ret s s₁ s₂ _ h h' := by
    have hfirst : Reads s s₁ pos (min remaining 256) (addressed lba) := by
      apply Reads.congr h
      intro i hi
      rw [addressed_first (by omega)]
    have hall := hfirst.outcome (h'.congr ?_)
    · rwa [Nat.add_sub_cancel' (Nat.min_le_left remaining 256)] at hall
    · intro i hi
      have hfull : min remaining 256 = 256 := by omega
      rw [hfull]
      exact addressed_next lba i
  valid lba remaining _ _ := by
    unfold wrap
    omega

theorem readSectors_spec (bus : Bus) (canDma : Bool) (s : State)
    {lba : ℕ} (hlba : lba < 4294967296) (count : ℕ) :
    ∃ ret s', readSectors bus canDma s lba count = .ok (ret, s') ∧
      ReadOutcome s s' ret 0 count (addressed lba) := by
  apply transferSectors_spec bus canDma readJoins _ le_rfl 0 hlba
  intro s pos lba remaining hlba hpos
  exact tryRead_spec bus s pos canDma hlba (by omega) (by omega)

/-! ## Writing -/

/-- Every batch of the request starts at a sector which the registers can
hold. -/
def Addressable (lba count : ℕ) : Prop :=
  count = 0 ∨ lba + (count - 1) / 256 * 256 < 268435456

theorem Addressable.lba_lt {lba count : ℕ} (h : Addressable lba count)
    (hpos : 0 < count) : lba < 268435456 := by
  unfold Addressable at h
  omega

theorem writeJoins :
    Joins
      (fun lba pos count ret s s' => WriteOutcome s s' ret pos count lba)
      (fun lba pos count ret s s' => WriteOutcome s s' ret pos count lba)
      (fun lba remaining => lba < 4294967296 ∧ Addressable lba remaining) where
  reset _ _ _ _ _ _ _ h := ⟨h.buffer, h.disk⟩
  again _ _ _ _ _ _ _ _ h h' := WritesInto.outcome h h'
  done lba pos s := by
    refine ⟨rfl, fun n q hq => ?_⟩
    rw [if_neg (by omega)]
  failed lba pos remaining e s s' _ h :=
    WritesInto.mono h le_rfl (by omega)
  next lba pos remaining ret s s₁ s₂ hvalid h h' := by
    have hwrap : wrap (lba + min remaining 256) = lba + min remaining 256 := by
      have hlt : lba + min remaining 256 < 4294967296 := by
        by_cases hzero : remaining = 0
        · omega
        · have := hvalid.2.lba_lt (by omega)
          omega
      exact Nat.mod_eq_of_lt hlt
    rw [hwrap] at h'
    have hall := Writes.outcome h h'
    rwa [Nat.add_sub_cancel' (Nat.min_le_left remaining 256)] at hall
  valid lba remaining hvalid hpos := by
    have hlba := hvalid.2.lba_lt hpos
    have haddr := hvalid.2
    unfold wrap
    unfold Addressable at *
    omega

theorem writeSectors_spec (bus : Bus) (canDma : Bool) (s : State)
    {lba count : ℕ} (hlba : lba < 4294967296)
    (haddr : Addressable lba count) :
    ∃ ret s', writeSectors bus canDma s lba count = .ok (ret, s') ∧
      WriteOutcome s s' ret 0 count lba := by
  apply transferSectors_spec bus canDma writeJoins _ le_rfl 0
    ⟨hlba, haddr⟩
  intro s pos lba remaining hvalid hpos
  have hlt := hvalid.2.lba_lt hpos
  have hbatch : 0 < min remaining 256 := by omega
  have hwrite := tryWrite_spec bus s pos canDma hvalid.1 hbatch (by omega)
  rwa [Nat.mod_eq_of_lt hlt] at hwrite

/-! ## The right sectors -/

/-- Whatever the drive answers, a read which reports success has moved the
sectors from `lba` on to the pieces of the buffer, and nothing else. -/
def ReadsRight (lba count : ℕ) : Prop :=
  ∀ bus canDma s, ∃ ret s', readSectors bus canDma s lba count = .ok (ret, s') ∧
    (ret = .ok () → Reads s s' 0 count (fun i => lba + i))

/-- Whatever the drive answers, a write which reports success has moved the
pieces of the buffer to the sectors from `lba` on, and nothing else. -/
def WritesRight (lba count : ℕ) : Prop :=
  ∀ bus canDma s, ∃ ret s',
    writeSectors bus canDma s lba count = .ok (ret, s') ∧
    (ret = .ok () → Writes s s' 0 count lba)

theorem readsRight_of_addressable {lba count : ℕ} (hlba : lba < 4294967296)
    (haddr : Addressable lba count) : ReadsRight lba count := by
  intro bus canDma s
  obtain ⟨ret, s', heq, hout⟩ := readSectors_spec bus canDma s hlba count
  refine ⟨ret, s', heq, ?_⟩
  intro hret
  subst hret
  apply Reads.congr hout
  intro i hi
  unfold Addressable at haddr
  have hle : i / 256 ≤ (count - 1) / 256 := Nat.div_le_div_right (by omega)
  unfold addressed
  omega

theorem writesRight_of_addressable {lba count : ℕ} (hlba : lba < 4294967296)
    (haddr : Addressable lba count) : WritesRight lba count := by
  intro bus canDma s
  obtain ⟨ret, s', heq, hout⟩ := writeSectors_spec bus canDma s hlba haddr
  refine ⟨ret, s', heq, ?_⟩
  intro hret
  subst hret
  exact hout

/-! ## A drive without failures -/

/-- The drive has an answer for every wait of a programmed read. -/
def Willing (s : State) (count : ℕ) : Prop :=
  ∃ rest, s.answers = List.replicate (2 * count) ⟨true, .success⟩ ++ rest

theorem tryReadPio_willing {left more : ℕ} (sector pos : ℕ) {s : State}
    (h : Willing s (left + more)) :
    ∃ s', tryReadPio left sector pos s = (.ok (), s') ∧ Willing s' more := by
  induction left generalizing sector pos s with
  | zero =>
      rw [Nat.zero_add] at h
      exact ⟨s, rfl, h⟩
  | succ left ih =>
      obtain ⟨rest, hrest⟩ := h
      have htwo : 2 * (left + 1 + more) = 2 * (left + more) + 1 + 1 := by omega
      rw [htwo, List.replicate_succ, List.replicate_succ] at hrest
      unfold tryReadPio wait
      rw [hrest]
      exact ih _ _ ⟨rest, rfl⟩

theorem transferSectors_willing (bus : Bus) {fuel remaining : ℕ}
    (lba pos : ℕ) {s : State} (hfuel : remaining ≤ fuel) (h : Willing s remaining) :
    ∃ s', transferSectors bus false
      (fun s pos lba count => tryRead bus s pos false lba count) fuel remaining
      lba pos s = .ok (.ok (), s') := by
  induction fuel generalizing remaining lba pos s with
  | zero =>
      have hzero : remaining = 0 := by omega
      subst hzero
      exact ⟨s, rfl⟩
  | succ fuel ih =>
      unfold transferSectors
      by_cases hzero : remaining = 0
      · subst hzero
        exact ⟨s, rfl⟩
      · have hsum : min remaining 256 + (remaining - min remaining 256) =
            remaining := Nat.add_sub_cancel' (Nat.min_le_left remaining 256)
        rw [← hsum] at h
        obtain ⟨s₁, hpio, hwilling⟩ := tryReadPio_willing 0 pos
          (s := commandState bus s s.prdt lba (min remaining 256)) h
        have hretry : retry bus false (fun s => tryRead bus s pos false lba
            (min remaining maxSectorsPerTransfer)) maxRetries s =
            .ok (.ok (), s₁) := by
          have htry : tryRead bus s pos false lba
              (min remaining maxSectorsPerTransfer) =
              .ok ⟨.ok (), false, s₁⟩ := by
            rw [tryRead_pio]
            show Except.ok (TryResult.mk (tryReadPio _ 0 pos
              (commandState bus s s.prdt lba (min remaining 256))).1 false
              (tryReadPio _ 0 pos
              (commandState bus s s.prdt lba (min remaining 256))).2) = _
            rw [show min remaining maxSectorsPerTransfer = min remaining 256
              from rfl, hpio]
          unfold maxRetries retry
          rw [htry]
          rfl
        obtain ⟨s', hrest⟩ := ih (wrap (lba + min remaining 256))
          (pos + min remaining 256 * 512) (by omega) hwilling
        refine ⟨s', ?_⟩
        rw [if_neg hzero]
        dsimp only
        rw [hretry]
        exact hrest

/-- A batch which starts beyond the registers' 28 bits reads other sectors and
reports success. -/
theorem not_readsRight {lba count : ℕ} (hlba : lba < 4294967296)
    (haddr : ¬Addressable lba count) : ¬ReadsRight lba count := by
  intro hright
  unfold Addressable at haddr
  generalize hpiece : (count - 1) / 256 * 256 = piece at haddr
  have hin : piece < count := by omega
  have hwrong : addressed lba piece ≠ lba + piece := by
    unfold addressed
    omega
  let disk : ℕ → ℕ → BitVec 8 := fun n _ => if n = lba + piece then 1 else 0
  let bus : Bus := ⟨false, ⟨0, 0, 0, 0, 0, 0⟩, fun _ _ _ => 0⟩
  let s : State := ⟨⟨0, 0, 0, 0, 0, 0⟩, disk, fun _ => 0,
    fun _ => ⟨0, false, fun _ => 0⟩,
    List.replicate (2 * count) ⟨true, .success⟩, 0⟩
  have hwilling : Willing s count := ⟨[], (List.append_nil _).symm⟩
  obtain ⟨s₁, hsuccess⟩ :=
    transferSectors_willing bus lba 0 le_rfl hwilling
  obtain ⟨ret, s', heq, hclaimed⟩ := hright bus false s
  obtain ⟨ret', s'', heq', hout⟩ := readSectors_spec bus false s hlba count
  have hread : readSectors bus false s lba count = .ok (.ok (), s₁) := hsuccess
  rw [hread] at heq heq'
  cases heq
  cases heq'
  have hreads : Reads s s₁ 0 count (addressed lba) := hout
  have hclaim := (hclaimed rfl).buffer (piece * 512)
  have hfact := hreads.buffer (piece * 512)
  have hrange : 0 ≤ piece * 512 ∧ piece * 512 < 0 + count * 512 := by omega
  rw [if_pos hrange, Nat.sub_zero, Nat.mul_div_cancel piece (by omega)]
    at hclaim hfact
  rw [hclaim] at hfact
  have hone : disk (lba + piece) (piece * 512 % 512) = 1 := if_pos rfl
  have hzero : disk (addressed lba piece) (piece * 512 % 512) = 0 :=
    if_neg hwrong
  have hbad : disk (lba + piece) (piece * 512 % 512) =
      disk (addressed lba piece) (piece * 512 % 512) := hfact
  rw [hone, hzero] at hbad
  exact absurd hbad (by decide)

/-- Reads and writes which report success move the right sectors exactly when
every batch starts below `2^28`. -/
theorem transfers_right_iff {lba count : ℕ} (hlba : lba < 4294967296) :
    ReadsRight lba count ∧ WritesRight lba count ↔ Addressable lba count := by
  constructor
  · intro hright
    by_contra haddr
    exact not_readsRight hlba haddr hright.1
  · intro haddr
    exact ⟨readsRight_of_addressable hlba haddr,
      writesRight_of_addressable hlba haddr⟩

theorem transfers_right_last_batch :
    ReadsRight 268435199 512 ∧ WritesRight 268435199 512 := by
  apply (transfers_right_iff (by decide)).2
  unfold Addressable
  omega

theorem first_unaddressable_sector :
    ¬(ReadsRight 268435456 1 ∧ WritesRight 268435456 1) := by
  intro hright
  refine not_readsRight (by decide) ?_ hright.1
  unfold Addressable
  omega

end Ata
end Yjkos
