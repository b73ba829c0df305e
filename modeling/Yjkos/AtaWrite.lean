import Yjkos.AtaTransfer

/-!
# Write requests

A write request stores a piece of the buffer in the sectors it addresses.
One which failed has left anything in these sectors, and nothing elsewhere.
-/

namespace Yjkos
namespace Ata

/-- The sectors from `address` on have taken the pieces of the buffer, and the
rest of the disk and the buffer are as before. -/
structure Writes (s s' : State) (pos count address : ℕ) : Prop where
  buffer : s'.buffer = s.buffer
  disk : ∀ n q, q < 512 → s'.disk n q =
    if address ≤ n ∧ n < address + count then
      s.buffer (pos + (n - address) * 512 + q)
    else s.disk n q

/-- A write which may have stopped half-way. -/
structure WritesInto (s s' : State) (count address : ℕ) : Prop where
  buffer : s'.buffer = s.buffer
  disk : ∀ n q, n < address ∨ address + count ≤ n → q < 512 →
    s'.disk n q = s.disk n q

theorem WritesInto.trans {s s' s'' : State} {count address : ℕ}
    (h : WritesInto s s' count address)
    (h' : WritesInto s' s'' count address) :
    WritesInto s s'' count address :=
  ⟨h'.buffer.trans h.buffer,
    fun n q hn hq => (h'.disk n q hn hq).trans (h.disk n q hn hq)⟩

theorem Writes.into {s s' : State} {pos count address : ℕ}
    (h : Writes s s' pos count address) : WritesInto s s' count address :=
  ⟨h.buffer, fun n q hn hq => by rw [h.disk n q hq, if_neg (by omega)]⟩

theorem WritesInto.mono {s s' : State} {count address count' address' : ℕ}
    (h : WritesInto s s' count address) (hle : address' ≤ address)
    (hend : address + count ≤ address' + count') :
    WritesInto s s' count' address' :=
  ⟨h.buffer, fun n q hn hq => h.disk n q (by omega) hq⟩

theorem WritesInto.writes {s s' s'' : State} {pos count address : ℕ}
    (h : WritesInto s s' count address)
    (h' : Writes s' s'' pos count address) :
    Writes s s'' pos count address := by
  refine ⟨h'.buffer.trans h.buffer, ?_⟩
  intro n q hq
  rw [h'.disk n q hq, h.buffer]
  split
  · rfl
  next hn => exact h.disk n q (by omega) hq

theorem Writes.cons {s s₁ s₂ : State} {pos first count address : ℕ}
    (h : Writes s s₁ pos first address)
    (h' : Writes s₁ s₂ (pos + first * 512) count (address + first)) :
    Writes s s₂ pos (first + count) address := by
  refine ⟨h'.buffer.trans h.buffer, ?_⟩
  intro n q hq
  rw [h'.disk n q hq, h.buffer, h.disk n q hq]
  by_cases hlater : address + first ≤ n
  · have hnot : ¬(address ≤ n ∧ n < address + first) := by omega
    have hin : (address + first ≤ n ∧ n < address + first + count) ↔
        (address ≤ n ∧ n < address + (first + count)) := by omega
    have harg : pos + first * 512 + (n - (address + first)) * 512 =
        pos + (n - address) * 512 := by omega
    rw [if_neg hnot, harg]
    exact if_congr hin rfl rfl
  · have hnot : ¬(address + first ≤ n ∧ n < address + first + count) := by
      omega
    have hin : (address ≤ n ∧ n < address + first) ↔
        (address ≤ n ∧ n < address + (first + count)) := by omega
    rw [if_neg hnot]
    exact if_congr hin rfl rfl

/-- The outcome of a write request. -/
def WriteOutcome (s s' : State) (ret : Except Errno Unit)
    (pos count address : ℕ) : Prop :=
  match ret with
  | .ok () => Writes s s' pos count address
  | .error _ => WritesInto s s' count address

theorem WriteOutcome.into {s s' : State} {ret : Except Errno Unit}
    {pos count address : ℕ} (h : WriteOutcome s s' ret pos count address) :
    WritesInto s s' count address := by
  cases ret with
  | ok => exact Writes.into h
  | error e => exact h

theorem Writes.outcome {s s₁ s₂ : State} {ret : Except Errno Unit}
    {pos first count address : ℕ} (h : Writes s s₁ pos first address)
    (h' : WriteOutcome s₁ s₂ ret (pos + first * 512) count
      (address + first)) :
    WriteOutcome s s₂ ret pos (first + count) address := by
  cases ret with
  | ok => exact h.cons h'
  | error e =>
      have hfirst : WritesInto s s₁ (first + count) address :=
        h.into.mono le_rfl (by omega)
      exact hfirst.trans (WritesInto.mono h' (by omega) (by omega))

theorem WritesInto.outcome {s s₁ s₂ : State} {ret : Except Errno Unit}
    {pos count address : ℕ} (h : WritesInto s s₁ count address)
    (h' : WriteOutcome s₁ s₂ ret pos count address) :
    WriteOutcome s s₂ ret pos count address := by
  cases ret with
  | ok => exact h.writes h'
  | error e => exact h.trans h'

theorem Waited.writesInto {s s' : State} (h : Waited s s')
    (count address : ℕ) : WritesInto s s' count address :=
  ⟨h.buffer, fun _ _ _ _ => by rw [h.disk]⟩

theorem writes_writeData (s : State) (src n : ℕ) :
    Writes s { s with
      disk := writeData s.disk n (fun i =>
        wordOf (s.buffer (src + 2 * i)) (s.buffer (src + 2 * i + 1))) }
      src 1 n := by
  refine ⟨rfl, ?_⟩
  intro m q hq
  rw [writeData_words]
  show Function.update s.disk n (fun q => s.buffer (src + q)) m q = _
  by_cases hm : m = n
  · subst hm
    rw [Function.update_self, if_pos (by omega), Nat.sub_self, Nat.zero_mul,
      Nat.add_zero]
  · rw [Function.update_of_ne hm, if_neg (by omega)]

theorem tryWritePio_regs {left sector src : ℕ} {s s' : State}
    {ret : Except Errno Unit}
    (h : tryWritePio left sector src s = (ret, s')) : s'.regs = s.regs := by
  induction left generalizing sector src s with
  | zero =>
      cases h
      rfl
  | succ left ih =>
      unfold tryWritePio at h
      split at h
      next s₁ hwait =>
        cases h
        exact (wait_waited hwait).regs
      next s₁ hwait =>
        split at h
        next s₂ hwait₂ =>
          cases h
          exact ((wait_waited hwait).trans (wait_waited hwait₂)).regs
        next s₂ hwait₂ =>
          have hwaited := (wait_waited hwait).trans (wait_waited hwait₂)
          dsimp only at h
          split at h
          next s₃ hwait₃ =>
            cases h
            exact (wait_waited hwait₃).regs.trans hwaited.regs
          next s₃ hwait₃ =>
            rw [ih h, (wait_waited hwait₃).regs]
            exact hwaited.regs

theorem tryWritePio_spec {left sector src : ℕ} {s s' : State}
    {ret : Except Errno Unit}
    (h : tryWritePio left sector src s = (ret, s')) :
    WriteOutcome s s' ret src left (s.regs.address + sector) := by
  induction left generalizing sector src s with
  | zero =>
      cases h
      refine ⟨rfl, fun n q hq => ?_⟩
      rw [if_neg (by omega)]
  | succ left ih =>
      unfold tryWritePio at h
      split at h
      next s₁ hwait =>
        cases h
        exact (wait_waited hwait).writesInto _ _
      next s₁ hwait =>
        split at h
        next s₂ hwait₂ =>
          cases h
          exact ((wait_waited hwait).trans (wait_waited hwait₂)).writesInto _ _
        next s₂ hwait₂ =>
          have hwaited := (wait_waited hwait).trans (wait_waited hwait₂)
          have hone := (hwaited.writesInto 1 (s₂.regs.address + sector)).writes
            (writes_writeData s₂ src (s₂.regs.address + sector))
          dsimp only at h
          split at h
          next s₃ hwait₃ =>
            cases h
            have hinto := hone.into.trans
              ((wait_waited hwait₃).writesInto 1 (s₂.regs.address + sector))
            rw [hwaited.regs] at hinto
            exact hinto.mono le_rfl (by omega)
          next s₃ hwait₃ =>
            have hrest := ((wait_waited hwait₃).writesInto left _).outcome (ih h)
            have hregs : s₃.regs = s₂.regs := (wait_waited hwait₃).regs
            have hall := hone.outcome (?_ : WriteOutcome _ s' ret _ left _)
            · rw [hwaited.regs, Nat.add_comm 1 left] at hall
              exact hall
            · rw [hregs, ← Nat.add_assoc] at hrest
              exact hrest

theorem tryWriteDma_regs (s : State) :
    (tryWriteDma s).state.regs = s.regs := by
  unfold tryWriteDma
  split
  · rfl
  · rfl
  · rfl

theorem tryWriteDma_spec {s : State} {pos count : ℕ}
    (hcount : s.regs.count = count)
    (hfetched : ∀ j, j < count * 512 →
      fetchStream prdCount 0 s.prdt j = s.buffer (pos + j)) :
    WriteOutcome s (tryWriteDma s).state (tryWriteDma s).ret pos count
      s.regs.address := by
  unfold tryWriteDma
  split
  next => exact ⟨rfl, fun _ _ _ _ => rfl⟩
  next rest hloop =>
    refine ⟨rfl, fun n q hq => ?_⟩
    show writeSectorsOf s.disk s.regs.address s.regs.count _ n q = _
    unfold writeSectorsOf
    rw [hcount]
    by_cases hn : s.regs.address ≤ n ∧ n < s.regs.address + count
    · have hlt : (n - s.regs.address) * 512 + q < count * 512 := by omega
      rw [if_pos hn, if_pos hn, Nat.add_assoc]
      exact hfetched _ hlt
    · rw [if_neg hn, if_neg hn]
  next => exact ⟨rfl, fun _ _ _ _ => rfl⟩

/-! ## The end of a write -/

/-- The wait behind a write keeps the disk and the address. -/
structure Finished (s s' : State) : Prop where
  address : s'.regs.address = s.regs.address
  count : s'.regs.count = s.regs.count
  disk : s'.disk = s.disk
  buffer : s'.buffer = s.buffer

theorem finishWrite_finished {bus : Bus} {s s' : State}
    {ret : Except Errno Unit} (h : finishWrite bus s = (ret, s')) :
    Finished s s' := by
  unfold finishWrite at h
  split at h
  next s₁ hwait =>
    cases h
    have hwaited := wait_waited hwait
    exact ⟨by rw [hwaited.regs], by rw [hwaited.regs], hwaited.disk,
      hwaited.buffer⟩
  next s₁ hwait =>
    have hwaited := wait_waited hwait
    have hflushed : ∀ {ok s₂},
        wait { s₁ with regs := selectDrive bus s₁.regs } = (ok, s₂) →
        Finished s s₂ := by
      intro ok s₂ hwait₂
      have hwaited₂ := wait_waited hwait₂
      refine ⟨?_, ?_, hwaited₂.disk.trans hwaited.disk,
        hwaited₂.buffer.trans hwaited.buffer⟩
      · rw [hwaited₂.regs, address_selectDrive, hwaited.regs]
      · rw [hwaited₂.regs, count_selectDrive, hwaited.regs]
    split at h
    next s₂ hwait₂ =>
      cases h
      exact hflushed hwait₂
    next s₂ hwait₂ =>
      cases h
      exact hflushed hwait₂

theorem spoil_ret (bus : Bus) (result : TryResult) :
    (spoil bus result).ret = result.ret := by
  unfold spoil
  split <;> rfl

theorem spoil_spec (bus : Bus) {s : State} {result : TryResult}
    {pos count address : ℕ}
    (haddress : result.state.regs.address = address)
    (hcount : result.state.regs.count = count)
    (hdone : result.ret = .ok () → Writes s result.state pos count address)
    (hinto : WritesInto s result.state count address) :
    WriteOutcome s (spoil bus result).state (spoil bus result).ret pos count
      address := by
  rw [spoil_ret]
  unfold spoil
  dsimp only
  cases hret : result.ret with
  | ok => exact hdone hret
  | error e =>
      refine ⟨hinto.buffer, fun n q hn hq => ?_⟩
      rw [← hinto.disk n q hn hq]
      show (if _ then _ else result.state.disk n) q = _
      rw [haddress, hcount, if_neg (by omega)]

theorem completeWrite_spec (bus : Bus) {s : State} {result : TryResult}
    {pos count address : ℕ}
    (haddress : result.state.regs.address = address)
    (hcount : result.state.regs.count = count)
    (h : WriteOutcome s result.state result.ret pos count address) :
    WriteOutcome s (completeWrite bus result).state
      (completeWrite bus result).ret pos count address := by
  unfold completeWrite
  cases hret : result.ret with
  | error e =>
      refine spoil_spec bus haddress hcount ?_ h.into
      intro hok
      rw [hret] at hok
      cases hok
  | ok =>
      rw [hret] at h
      have hwrites : Writes s result.state pos count address := h
      have hfin : Finished result.state (finishWrite bus result.state).2 :=
        finishWrite_finished rfl
      have hwrites' : Writes s (finishWrite bus result.state).2 pos count
          address := by
        refine ⟨hfin.buffer.trans hwrites.buffer, fun n q hq => ?_⟩
        rw [hfin.disk]
        exact hwrites.disk n q hq
      exact spoil_spec bus (hfin.address.trans haddress)
        (hfin.count.trans hcount) (fun _ => hwrites') hwrites'.into

theorem tryWrite_pio (bus : Bus) (s : State) (pos lba count : ℕ) :
    tryWrite bus s pos false lba count =
      let r := tryWritePio count 0 pos (commandState bus s s.prdt lba count)
      .ok (completeWrite bus ⟨r.1, false, r.2⟩) :=
  rfl

theorem tryWrite_dma (bus : Bus) {s : State} {pos lba count : ℕ}
    {prdt : ℕ → Prd}
    (h : dmaInitTransfer { s with requests := s.requests + 1 } pos
      (count * sectorSize) false =
      .ok { s with requests := s.requests + 1, prdt := prdt }) :
    tryWrite bus s pos true lba count = .ok (completeWrite bus
      (tryWriteDma (commandState bus s prdt lba count))) := by
  show (dmaInitTransfer { s with requests := s.requests + 1 } pos
      (count * sectorSize) false >>= _) = _
  rw [h]
  rfl

theorem tryWrite_spec (bus : Bus) (s : State) (pos : ℕ) (canDma : Bool)
    {lba count : ℕ} (hlba : lba < 4294967296) (hpos : 0 < count)
    (hcount : count ≤ 256) :
    ∃ result, tryWrite bus s pos canDma lba count = .ok result ∧
      WriteOutcome s result.state result.ret pos count
        (lba % 268435456) := by
  have haddress := address_commandRegs bus s.regs hlba count
  have hregs := count_commandRegs bus s.regs lba hpos hcount
  have hinto : ∀ prdt, WritesInto s (commandState bus s prdt lba count) count
      (lba % 268435456) := fun prdt => ⟨rfl, fun _ _ _ _ => rfl⟩
  cases canDma with
  | false =>
      refine ⟨_, tryWrite_pio bus s pos lba count, ?_⟩
      have hpio : WriteOutcome _ _ _ pos count _ := tryWritePio_spec
        (show tryWritePio count 0 pos (commandState bus s s.prdt lba count) =
          (_, _) from rfl)
      have hkept : (tryWritePio count 0 pos
          (commandState bus s s.prdt lba count)).2.regs = _ :=
        tryWritePio_regs rfl
      rw [Nat.add_zero, show (commandState bus s s.prdt lba count).regs.address
        = lba % 268435456 from haddress] at hpio
      apply completeWrite_spec bus
      · show (tryWritePio count 0 pos _).2.regs.address = _
        rw [hkept]
        exact haddress
      · show (tryWritePio count 0 pos _).2.regs.count = _
        rw [hkept]
        exact hregs
      · exact (hinto s.prdt).outcome hpio
  | true =>
      obtain ⟨prdt, hinit, hfilled⟩ := dmaInitTransfer_spec
        { s with requests := s.requests + 1 } pos false hpos hcount
      refine ⟨_, tryWrite_dma bus hinit, ?_⟩
      have hdma : WriteOutcome (commandState bus s prdt lba count) _ _ pos
          count _ := tryWriteDma_spec hregs (fun j hj => by
        have hfetch := hfilled.fetched rfl j hj
        rwa [Nat.zero_mul, Nat.add_zero] at hfetch)
      rw [show (commandState bus s prdt lba count).regs.address
        = lba % 268435456 from haddress] at hdma
      apply completeWrite_spec bus
      · rw [tryWriteDma_regs]
        exact haddress
      · rw [tryWriteDma_regs]
        exact hregs
      · exact (hinto prdt).outcome hdma

end Ata
end Yjkos
