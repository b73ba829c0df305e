import Yjkos.AtaWrite

/-!
# Recovery from failed transfers

`read_sectors` and `write_sectors` of `kernel/dev/atadisk.c` with a record of
their attempts: whether the disk is reset behind each of them.  The hardware
decides how an attempt of the bus master ends; a write which succeeds has also
been waited for and flushed.
-/

namespace Yjkos
namespace Ata

/-! ## The record -/

/-- What a request has done: for each attempt whether the disk was reset
behind it, and the result. -/
structure Recovery where
  resets : List Bool
  ret : Except Errno Unit

section Recording

variable (bus : Bus) (canDma : Bool)

/-- `retry` with its record. -/
def retryRecorded (attempt : State → Except Fault TryResult) :
    ℕ → State → Except Fault (Recovery × State)
  | 0, s => do
      let result ← attempt s
      .ok (⟨[false], result.ret⟩, result.state)
  | left + 1, s => do
      let result ← attempt s
      match result.ret with
      | .ok () => .ok (⟨[false], .ok ()⟩, result.state)
      | .error _ =>
          let s := result.state
          let reset := !result.isCrcError && canDma
          let s := if reset then { s with regs := bus.resetRegs } else s
          let (recovery, s) ← retryRecorded attempt left s
          .ok (⟨reset :: recovery.resets, recovery.ret⟩, s)

/-- `transferSectors` with its record. -/
def transferRecorded
    (attempt : State → ℕ → ℕ → ℕ → Except Fault TryResult) :
    ℕ → ℕ → ℕ → ℕ → State → Except Fault (Recovery × State)
  | fuel, remaining, lba, pos, s =>
      if remaining = 0 then .ok (⟨[], .ok ()⟩, s)
      else
        match fuel with
        | 0 => .error .outOfFuel
        | fuel + 1 => do
            let current := min remaining maxSectorsPerTransfer
            let (batch, s) ← retryRecorded bus canDma
              (fun s => attempt s pos lba current) maxRetries s
            match batch.ret with
            | .error e => .ok (⟨batch.resets, .error e⟩, s)
            | .ok () => do
                let (rest, s) ← transferRecorded attempt fuel
                  (remaining - current) (wrap (lba + current))
                  (pos + current * sectorSize) s
                .ok (⟨batch.resets ++ rest.resets, rest.ret⟩, s)

def readRecorded (s : State) (lba sectorCount : ℕ) :
    Except Fault (Recovery × State) :=
  transferRecorded bus canDma
    (fun s pos lba count => tryRead bus s pos canDma lba count)
    sectorCount sectorCount lba 0 s

def writeRecorded (s : State) (lba sectorCount : ℕ) :
    Except Fault (Recovery × State) :=
  transferRecorded bus canDma
    (fun s pos lba count => tryWrite bus s pos canDma lba count)
    sectorCount sectorCount lba 0 s

theorem retry_of_recorded {attempt : State → Except Fault TryResult}
    {left : ℕ} {s s' : State} {recovery : Recovery}
    (h : retryRecorded bus canDma attempt left s = .ok (recovery, s')) :
    retry bus canDma attempt left s = .ok (recovery.ret, s') := by
  induction left generalizing s recovery with
  | zero =>
      obtain ⟨result, hresult, heq⟩ := bind_eq_ok h
      cases heq
      rw [retry, hresult]
      rfl
  | succ left ih =>
      obtain ⟨⟨ret, isCrcError, s₁⟩, hresult, heq⟩ := bind_eq_ok h
      rw [retry, hresult, ok_bind]
      cases ret with
      | ok =>
          cases heq
          rfl
      | error e =>
          obtain ⟨⟨rest, s₂⟩, hrest, hend⟩ := bind_eq_ok heq
          cases hend
          have hretry := ih hrest
          exact hretry

theorem transferSectors_of_recorded
    {attempt : State → ℕ → ℕ → ℕ → Except Fault TryResult}
    {fuel remaining lba pos : ℕ} {s s' : State} {recovery : Recovery}
    (h : transferRecorded bus canDma attempt fuel remaining lba pos s =
      .ok (recovery, s')) :
    transferSectors bus canDma attempt fuel remaining lba pos s =
      .ok (recovery.ret, s') := by
  induction fuel generalizing remaining lba pos s recovery with
  | zero =>
      rw [transferRecorded] at h
      rw [transferSectors]
      split at h
      next hnone =>
        cases h
        rw [if_pos hnone]
      next => cases h
  | succ fuel ih =>
      rw [transferRecorded] at h
      rw [transferSectors]
      split at h
      next hnone =>
        cases h
        rw [if_pos hnone]
      next hsome =>
        obtain ⟨⟨⟨resets, ret⟩, s₁⟩, hbatch, hbehind⟩ := bind_eq_ok h
        rw [if_neg hsome]
        dsimp only
        rw [retry_of_recorded bus canDma hbatch, ok_bind]
        cases ret with
        | error e =>
            cases hbehind
            rfl
        | ok =>
            obtain ⟨⟨rest, s₂⟩, hrest, hend⟩ := bind_eq_ok hbehind
            cases hend
            have htransfer := ih hrest
            exact htransfer

end Recording

/-! ## Outcomes -/

/-- How an attempt of the bus master ends. -/
inductive Outcome where
  | success
  | udmaCrc
  | otherIo
  | nomem
  | timeout
deriving DecidableEq, Repr

/-- The answer which ends the loop of the transfer. -/
def Outcome.answer : Outcome → Answer
  | .success => ⟨true, .success⟩
  | .udmaCrc => ⟨true, .failUdmaCrc⟩
  | .otherIo => ⟨true, .failOtherIo⟩
  | .nomem => ⟨true, .failNomem⟩
  | .timeout => ⟨false, .busy⟩

def Outcome.ret : Outcome → Except Errno Unit
  | .success => .ok ()
  | .nomem => .error .enomem
  | _ => .error .eio

/-- The answers during an attempt, which finds the bus master busy a number of
times. -/
def transferAnswers (attempt : ℕ × Outcome) : List Answer :=
  List.replicate attempt.1 ⟨true, .busy⟩ ++ [attempt.2.answer]

/-- A write has two waits behind a transfer which succeeds. -/
def waitAnswers : Outcome → List Answer
  | .success => [⟨true, .busy⟩, ⟨true, .busy⟩]
  | _ => []

def readAnswers (attempts : List (ℕ × Outcome)) : List Answer :=
  attempts.flatMap transferAnswers

def writeAnswers (attempts : List (ℕ × Outcome)) : List Answer :=
  attempts.flatMap fun attempt =>
    transferAnswers attempt ++ waitAnswers attempt.2

/-! ## One attempt -/

/-- An attempt ends as the hardware decides, and `crc` tells what it lets its
caller know of a transmission error.  Without answers it times out. -/
structure Plays (answers : List (ℕ × Outcome) → List Answer)
    (crc : Outcome → Bool) (attempt : State → Except Fault TryResult) :
    Prop where
  next : ∀ s polls o rest, s.answers = answers ((polls, o) :: rest) →
    ∃ s', attempt s = .ok ⟨o.ret, crc o, s'⟩ ∧ s'.answers = answers rest
  dry : ∀ s, s.answers = [] →
    ∃ s', attempt s = .ok ⟨Outcome.timeout.ret, crc .timeout, s'⟩ ∧
      s'.answers = []

section Attempts

variable (bus : Bus) (pos lba : ℕ) {count : ℕ}

theorem dmaLoop_polls (polls : ℕ) (answers : List Answer) :
    dmaLoop (List.replicate polls ⟨true, .busy⟩ ++ answers) =
      dmaLoop answers := by
  induction polls with
  | zero => rfl
  | succ polls ih => exact ih

theorem dmaLoop_transfer (polls : ℕ) (o : Outcome) (rest : List Answer) :
    dmaLoop (transferAnswers (polls, o) ++ rest) =
      dmaLoop (o.answer :: rest) := by
  rw [transferAnswers, List.append_assoc, dmaLoop_polls]
  rfl

/-- `try_read` does not let its caller know of a transmission error. -/
theorem tryRead_plays (hpos : 0 < count) (hcount : count ≤ 256) :
    Plays readAnswers (fun _ => false)
      (fun s => tryRead bus s pos true lba count) := by
  have hdma : ∀ s : State, ∃ prdt,
      tryRead bus s pos true lba count =
        let r := tryReadDma (commandState bus s prdt lba count) pos
        .ok ⟨r.ret, false, r.state⟩ := by
    intro s
    obtain ⟨prdt, hinit, -⟩ := dmaInitTransfer_spec
      { s with requests := s.requests + 1 } pos true hpos hcount
    exact ⟨prdt, tryRead_dma bus hinit⟩
  constructor
  · intro s polls o rest hanswers
    obtain ⟨prdt, heq⟩ := hdma s
    have hloop : dmaLoop (commandState bus s prdt lba count).answers =
        dmaLoop (o.answer :: readAnswers rest) := by
      show dmaLoop s.answers = _
      rw [hanswers, readAnswers, List.flatMap_cons]
      exact dmaLoop_transfer polls o _
    dsimp only at heq ⊢
    unfold tryReadDma at heq
    rw [hloop] at heq
    cases o <;> exact ⟨_, heq, rfl⟩
  · intro s hanswers
    obtain ⟨prdt, heq⟩ := hdma s
    have hloop : dmaLoop (commandState bus s prdt lba count).answers =
        dmaLoop [] := by
      show dmaLoop s.answers = _
      rw [hanswers]
    dsimp only at heq ⊢
    unfold tryReadDma at heq
    rw [hloop] at heq
    exact ⟨_, heq, rfl⟩

theorem tryWrite_plays (hpos : 0 < count) (hcount : count ≤ 256) :
    Plays writeAnswers (fun o => o = .udmaCrc)
      (fun s => tryWrite bus s pos true lba count) := by
  have hdma : ∀ s : State, ∃ prdt,
      tryWrite bus s pos true lba count = .ok (completeWrite bus
        (tryWriteDma (commandState bus s prdt lba count))) := by
    intro s
    obtain ⟨prdt, hinit, -⟩ := dmaInitTransfer_spec
      { s with requests := s.requests + 1 } pos false hpos hcount
    exact ⟨prdt, tryWrite_dma bus hinit⟩
  constructor
  · intro s polls o rest hanswers
    obtain ⟨prdt, heq⟩ := hdma s
    have hloop : dmaLoop (commandState bus s prdt lba count).answers =
        dmaLoop (o.answer :: (waitAnswers o ++ writeAnswers rest)) := by
      show dmaLoop s.answers = _
      rw [hanswers, writeAnswers, List.flatMap_cons, List.append_assoc]
      exact dmaLoop_transfer polls o _
    unfold tryWriteDma at heq
    rw [hloop] at heq
    cases o <;> exact ⟨_, heq, rfl⟩
  · intro s hanswers
    obtain ⟨prdt, heq⟩ := hdma s
    have hloop : dmaLoop (commandState bus s prdt lba count).answers =
        dmaLoop [] := by
      show dmaLoop s.answers = _
      rw [hanswers]
    unfold tryWriteDma at heq
    rw [hloop] at heq
    exact ⟨_, heq, rfl⟩

end Attempts

/-! ## What a request does -/

/-- The outcomes of the attempts at one batch, which is tried `left` times
more at most. -/
def tries : ℕ → List Outcome → List Outcome
  | 0, outcomes => [outcomes.headD .timeout]
  | left + 1, outcomes =>
      let o := outcomes.headD .timeout
      if o = .success then [o] else o :: tries left outcomes.tail

/-- The outcomes of the attempts of a request. -/
def attempts : ℕ → List Outcome → List Outcome
  | 0, _ => []
  | batches + 1, outcomes =>
      let batch := tries maxRetries outcomes
      if .success ∈ batch then
        batch ++ attempts batches (outcomes.drop batch.length)
      else batch

/-- Behind which attempts the disk is reset when they are tried again, if the
outcome asks for it. -/
def resetsBehind (asks : Outcome → Bool) : List Outcome → List Bool
  | [] => []
  | [_] => [false]
  | o :: o' :: rest =>
      (o ≠ .success && asks o) :: resetsBehind asks (o' :: rest)

/-- The result of the last attempt. -/
def lastRet (made : List Outcome) : Except Errno Unit :=
  (made.getLastD .success).ret

section Made

variable {asks : Outcome → Bool} {left batches : ℕ} {outcomes : List Outcome}

theorem Outcome.ret_eq_ok {o : Outcome} :
    o.ret = .ok () ↔ o = .success := by
  cases o <;> decide

theorem tries_ne_nil : tries left outcomes ≠ [] := by
  cases left with
  | zero => exact List.cons_ne_nil _ _
  | succ left =>
      unfold tries
      dsimp only
      split
      · exact List.cons_ne_nil _ _
      · exact List.cons_ne_nil _ _

/-- A batch ends with its first success. -/
theorem tries_success (h : .success ∈ tries left outcomes) :
    ∃ failed, tries left outcomes = failed ++ [.success] := by
  induction left generalizing outcomes with
  | zero =>
      rw [tries, List.mem_singleton] at h
      exact ⟨[], by rw [tries, ← h]; rfl⟩
  | succ left ih =>
      unfold tries at h ⊢
      dsimp only at h ⊢
      split at h
      next hsuccess =>
        rw [if_pos hsuccess, hsuccess]
        exact ⟨[], rfl⟩
      next hfailed =>
        rw [if_neg hfailed]
        obtain ⟨failed, heq⟩ :=
          ih ((List.mem_cons.1 h).resolve_left (Ne.symm hfailed))
        exact ⟨_ :: failed, by rw [heq]; rfl⟩

theorem resetsBehind_append (failed rest : List Outcome) :
    resetsBehind asks (failed ++ [.success] ++ rest) =
      resetsBehind asks (failed ++ [.success]) ++ resetsBehind asks rest := by
  induction failed with
  | nil => cases rest <;> rfl
  | cons o failed ih =>
      cases failed with
      | nil =>
          cases rest <;> rfl
      | cons o' failed =>
          exact congrArg (_ :: ·) ih

theorem getElem?_headD {i : ℕ} (hi : i < 1) :
    [outcomes.headD .timeout][i]? = some (outcomes.getD i .timeout) := by
  obtain rfl := Nat.lt_one_iff.1 hi
  cases outcomes <;> rfl

/-- Every attempt ends as the hardware decides. -/
theorem tries_getElem? {i : ℕ} (hi : i < (tries left outcomes).length) :
    (tries left outcomes)[i]? = some (outcomes.getD i .timeout) := by
  induction left generalizing outcomes i with
  | zero => exact getElem?_headD hi
  | succ left ih =>
      unfold tries at hi ⊢
      dsimp only at hi ⊢
      split at hi
      next hsuccess =>
        rw [if_pos hsuccess]
        exact getElem?_headD hi
      next hfailed =>
        rw [if_neg hfailed]
        cases i with
        | zero => cases outcomes <;> rfl
        | succ i =>
            have hrest := ih (Nat.lt_of_succ_lt_succ hi)
            rw [List.getElem?_cons_succ, hrest]
            cases outcomes <;> rfl

theorem attempts_getElem? {i : ℕ}
    (hi : i < (attempts batches outcomes).length) :
    (attempts batches outcomes)[i]? = some (outcomes.getD i .timeout) := by
  induction batches generalizing outcomes i with
  | zero => exact absurd hi (Nat.not_lt_zero i)
  | succ batches ih =>
      unfold attempts at hi ⊢
      dsimp only at hi ⊢
      split at hi
      next hsuccess =>
        rw [if_pos hsuccess]
        by_cases hbatch : i < (tries maxRetries outcomes).length
        · rw [List.getElem?_append_left hbatch]
          exact tries_getElem? hbatch
        · have hle := Nat.le_of_not_lt hbatch
          rw [List.length_append] at hi
          rw [List.getElem?_append_right hle, ih (by omega),
            List.getD_eq_getElem?_getD, List.getElem?_drop,
            Nat.add_sub_cancel' hle, ← List.getD_eq_getElem?_getD]
      next hfailed =>
        rw [if_neg hfailed]
        exact tries_getElem? hi

/-- The disk is reset behind the attempts which are tried again and whose
outcome asks for it. -/
theorem resetsBehind_getElem? (made : List Outcome) {i : ℕ}
    (hi : i < made.length) :
    (resetsBehind asks made)[i]? = some (decide (i + 1 < made.length) &&
      (made.getD i .success ≠ .success && asks (made.getD i .success))) := by
  induction made generalizing i with
  | nil => exact absurd hi (Nat.not_lt_zero i)
  | cons o made ih =>
      cases made with
      | nil =>
          obtain rfl := Nat.lt_one_iff.1 hi
          rfl
      | cons o' made =>
          cases i with
          | zero =>
              have hmore : 0 + 1 < (o :: o' :: made).length :=
                Nat.succ_lt_succ (Nat.succ_pos _)
              rw [decide_eq_true hmore, Bool.true_and]
              rfl
          | succ i =>
              have hrest := ih (Nat.lt_of_succ_lt_succ hi)
              have hlast : (i + 1 + 1 < (o :: o' :: made).length) =
                  (i + 1 < (o' :: made).length) := by
                rw [List.length_cons, Nat.succ_lt_succ_iff]
              rw [resetsBehind, List.getElem?_cons_succ, hrest,
                List.getD_cons_succ]
              simp only [hlast]

theorem length_resetsBehind (made : List Outcome) :
    (resetsBehind asks made).length = made.length := by
  induction made with
  | nil => rfl
  | cons o made ih =>
      cases made with
      | nil => rfl
      | cons o' made => exact congrArg Nat.succ ih

end Made

/-! ## A request does that -/

section Requests

variable {answers : List (ℕ × Outcome) → List Answer} {crc : Outcome → Bool}
  (bus : Bus)

/-- The next attempt. -/
theorem Plays.attempt {attempt : State → Except Fault TryResult}
    (hplays : Plays answers crc attempt) (hnil : answers [] = [])
    {outcomes : List (ℕ × Outcome)} {s : State}
    (hs : s.answers = answers outcomes) :
    ∃ s' o, o = (outcomes.map Prod.snd).headD .timeout ∧
      attempt s = .ok ⟨o.ret, crc o, s'⟩ ∧
      s'.answers = answers outcomes.tail := by
  cases outcomes with
  | nil =>
      rw [hnil] at hs
      obtain ⟨s', heq, hrest⟩ := hplays.dry s hs
      exact ⟨s', .timeout, rfl, heq, hrest.trans hnil.symm⟩
  | cons first rest =>
      obtain ⟨polls, o⟩ := first
      obtain ⟨s', heq, hrest⟩ := hplays.next s polls o rest hs
      exact ⟨s', o, rfl, heq, hrest⟩

theorem lastRet_cons (o : Outcome) {made : List Outcome} (h : made ≠ []) :
    lastRet (o :: made) = lastRet made := by
  obtain ⟨o', rest, rfl⟩ := List.exists_cons_of_ne_nil h
  unfold lastRet
  rw [List.getLastD_cons, List.getLastD_cons, List.getLastD_cons]

theorem retryRecorded_eq {attempt : State → Except Fault TryResult}
    (hplays : Plays answers crc attempt) (hnil : answers [] = [])
    (left : ℕ) {outcomes : List (ℕ × Outcome)} {s : State}
    (hs : s.answers = answers outcomes) :
    ∃ s' made, made = tries left (outcomes.map Prod.snd) ∧
      retryRecorded bus true attempt left s =
        .ok (⟨resetsBehind (fun o => !crc o) made, lastRet made⟩, s') ∧
      s'.answers = answers (outcomes.drop made.length) := by
  induction left generalizing outcomes s with
  | zero =>
      obtain ⟨s₁, o, ho, heq, hrest⟩ := hplays.attempt hnil hs
      refine ⟨s₁, [o], by rw [tries, ← ho], ?_, ?_⟩
      · rw [retryRecorded, heq]
        rfl
      · rw [hrest, List.length_singleton, List.drop_one]
  | succ left ih =>
      obtain ⟨s₁, o, ho, heq, hrest⟩ := hplays.attempt hnil hs
      by_cases hsuccess : o = .success
      · subst hsuccess
        refine ⟨s₁, [.success], ?_, ?_, ?_⟩
        · rw [tries, ← ho]
          rfl
        · rw [retryRecorded, heq]
          rfl
        · rw [hrest, List.length_singleton, List.drop_one]
      · obtain ⟨e, he⟩ : ∃ e, o.ret = .error e := by
          cases o with
          | success => exact absurd rfl hsuccess
          | udmaCrc => exact ⟨_, rfl⟩
          | otherIo => exact ⟨_, rfl⟩
          | nomem => exact ⟨_, rfl⟩
          | timeout => exact ⟨_, rfl⟩
        have hreset : (if (!crc o && true) = true then
            { s₁ with regs := bus.resetRegs } else s₁).answers =
              answers outcomes.tail := by
          split
          · exact hrest
          · exact hrest
        obtain ⟨s', made, hmade, hloop, hend⟩ := ih hreset
        have hne : made ≠ [] := by
          rw [hmade]
          exact tries_ne_nil
        refine ⟨s', o :: made, ?_, ?_, ?_⟩
        · rw [tries, ← ho, if_neg hsuccess, hmade, List.map_tail]
        · rw [retryRecorded, heq, ok_bind, he]
          dsimp only
          rw [hloop, ok_bind, lastRet_cons o hne]
          obtain ⟨o', rest, rfl⟩ := List.exists_cons_of_ne_nil hne
          rw [resetsBehind, decide_eq_true hsuccess, Bool.true_and,
            Bool.and_true]
        · rw [hend, List.length_cons, List.drop_tail]

theorem lastRet_append {made rest : List Outcome} (h : rest ≠ []) :
    lastRet (made ++ rest) = lastRet rest := by
  induction made with
  | nil => rfl
  | cons o made ih =>
      have hne : made ++ rest ≠ [] := List.append_ne_nil_of_right_ne_nil _ h
      rw [List.cons_append, lastRet_cons o hne, ih]

/-- A batch is done when one of its attempts succeeds. -/
theorem lastRet_tries {left : ℕ} {outcomes : List Outcome} :
    lastRet (tries left outcomes) = .ok () ↔
      .success ∈ tries left outcomes := by
  constructor
  · intro h
    obtain ⟨failed, o, heq⟩ :=
      List.eq_nil_or_concat (tries left outcomes) |>.resolve_left
        tries_ne_nil
    rw [heq, List.concat_eq_append] at h ⊢
    rw [lastRet_append (List.cons_ne_nil _ _)] at h
    have ho : o = .success := Outcome.ret_eq_ok.1 h
    rw [ho]
    exact List.mem_append_right _ List.mem_cons_self
  · intro h
    obtain ⟨failed, heq⟩ := tries_success h
    rw [heq, lastRet_append (List.cons_ne_nil _ _)]
    rfl

/-- The number of batches of a request. -/
def batchCount (sectorCount : ℕ) : ℕ :=
  (sectorCount + (maxSectorsPerTransfer - 1)) / maxSectorsPerTransfer

theorem batchCount_next {remaining : ℕ} (h : remaining ≠ 0) :
    batchCount remaining =
      batchCount (remaining - min remaining maxSectorsPerTransfer) + 1 := by
  unfold batchCount maxSectorsPerTransfer
  omega

theorem transferRecorded_eq
    {attempt : State → ℕ → ℕ → ℕ → Except Fault TryResult}
    (hplays : ∀ pos lba count, 0 < count → count ≤ 256 →
      Plays answers crc (fun s => attempt s pos lba count))
    (hnil : answers [] = []) {fuel remaining : ℕ} (lba pos : ℕ)
    (hfuel : remaining ≤ fuel) {outcomes : List (ℕ × Outcome)} {s : State}
    (hs : s.answers = answers outcomes) :
    ∃ s' made, made = attempts (batchCount remaining)
        (outcomes.map Prod.snd) ∧
      transferRecorded bus true attempt fuel remaining lba pos s =
        .ok (⟨resetsBehind (fun o => !crc o) made, lastRet made⟩, s') := by
  induction fuel generalizing remaining lba pos outcomes s with
  | zero =>
      obtain rfl := Nat.le_zero.1 hfuel
      exact ⟨s, [], rfl, rfl⟩
  | succ fuel ih =>
      by_cases hzero : remaining = 0
      · subst hzero
        refine ⟨s, [], rfl, ?_⟩
        rw [transferRecorded, if_pos rfl]
        rfl
      · have hone := hplays pos lba (min remaining maxSectorsPerTransfer)
          (by unfold maxSectorsPerTransfer; omega) (Nat.min_le_right _ _)
        obtain ⟨s₁, batch, hbatch, hretry, hrest⟩ :=
          retryRecorded_eq bus hone hnil maxRetries hs
        rw [transferRecorded, if_neg hzero, batchCount_next hzero]
        dsimp only
        rw [hretry, ok_bind]
        dsimp only
        by_cases hdone : .success ∈ batch
        · have hok : lastRet batch = .ok () := by
            rw [hbatch] at hdone ⊢
            exact lastRet_tries.2 hdone
          have hless : remaining - min remaining maxSectorsPerTransfer ≤
              fuel := by
            unfold maxSectorsPerTransfer
            omega
          obtain ⟨s', made, hmade, hloop⟩ := ih
            (wrap (lba + min remaining maxSectorsPerTransfer))
            (pos + min remaining maxSectorsPerTransfer * sectorSize) hless
            hrest
          have hret : lastRet (batch ++ made) = lastRet made := by
            cases made with
            | nil => rw [List.append_nil, hok]; rfl
            | cons o rest => exact lastRet_append (List.cons_ne_nil o rest)
          have hresets :
              resetsBehind (fun o => !crc o) (batch ++ made) =
                resetsBehind (fun o => !crc o) batch ++
                  resetsBehind (fun o => !crc o) made := by
            rw [hbatch] at hdone ⊢
            obtain ⟨failed, heq⟩ := tries_success hdone
            rw [heq]
            exact resetsBehind_append failed made
          refine ⟨s', batch ++ made, ?_, ?_⟩
          · rw [hbatch] at hdone hmade ⊢
            rw [attempts, if_pos hdone, hmade, List.map_drop]
          · rw [hok, hret, hresets]
            dsimp only
            rw [hloop]
            rfl
        · obtain ⟨e, he⟩ : ∃ e, lastRet batch = .error e := by
            cases hret : lastRet batch with
            | error e => exact ⟨e, rfl⟩
            | ok =>
                rw [hbatch] at hdone hret
                exact absurd (lastRet_tries.1 hret) hdone
          refine ⟨s₁, batch, ?_, ?_⟩
          · rw [hbatch] at hdone ⊢
            rw [attempts, if_neg hdone]
          · rw [he]

/-- The disk is reset behind every read which is tried again. -/
theorem readRecorded_eq {s : State} (lba sectorCount : ℕ)
    {reads : List (ℕ × Outcome)} (hs : s.answers = readAnswers reads) :
    ∃ r, readRecorded bus true s lba sectorCount =
      .ok (⟨resetsBehind (fun _ => true)
          (attempts (batchCount sectorCount) (reads.map Prod.snd)),
        lastRet (attempts (batchCount sectorCount)
          (reads.map Prod.snd))⟩, r) := by
  obtain ⟨r, made, rfl, heq⟩ := transferRecorded_eq bus
    (fun pos lba _ hpos hcount => tryRead_plays bus pos lba hpos hcount) rfl
    lba 0 (le_refl sectorCount) hs
  exact ⟨r, heq⟩

/-- The disk is reset behind a write which is tried again, unless it failed
with a transmission error. -/
theorem writeRecorded_eq {s : State} (lba sectorCount : ℕ)
    {writes : List (ℕ × Outcome)} (hs : s.answers = writeAnswers writes) :
    ∃ r, writeRecorded bus true s lba sectorCount =
      .ok (⟨resetsBehind (fun o => !decide (o = .udmaCrc))
          (attempts (batchCount sectorCount) (writes.map Prod.snd)),
        lastRet (attempts (batchCount sectorCount)
          (writes.map Prod.snd))⟩, r) := by
  obtain ⟨r, made, rfl, heq⟩ := transferRecorded_eq bus
    (fun pos lba _ hpos hcount => tryWrite_plays bus pos lba hpos hcount) rfl
    lba 0 (le_refl sectorCount) hs
  exact ⟨r, heq⟩

end Requests

/-! ## The two paths -/

/-- The recovery of the two paths agrees.  `throughout` tells whether a
request which gives up also has to reset the disk. -/
structure Agrees (throughout : Bool) (outcome : ℕ → Outcome)
    (read write : Recovery) : Prop where
  crc : ∀ i < read.resets.length, outcome i = .udmaCrc →
    read.resets[i]? = some false ∧ write.resets[i]? = some false
  other : ∀ i < read.resets.length,
    throughout = true ∨ i + 1 < read.resets.length →
    outcome i ≠ .success → outcome i ≠ .udmaCrc →
      read.resets[i]? = some true ∧ write.resets[i]? = some true
  tries : read.resets.length = write.resets.length
  ret : read.ret = write.ret

/-- The outcomes of the attempts one after another. -/
def outcomeAt (outcomes : List Outcome) (i : ℕ) : Outcome :=
  outcomes.getD i .timeout

section Paths

variable {outcomes made : List Outcome} {batches : ℕ} {throughout : Bool}

/-- What the two paths do for the same outcomes agrees as long as no attempt
which is tried again fails with a transmission error, and, where it matters,
no request gives up for another reason. -/
theorem agrees_iff (hmade : made = attempts batches outcomes)
    {read write : Recovery}
    (hread : read = ⟨resetsBehind (fun _ => true) made, lastRet made⟩)
    (hwrite : write =
      ⟨resetsBehind (fun o => !decide (o = .udmaCrc)) made, lastRet made⟩) :
    Agrees throughout (outcomeAt outcomes) read write ↔
      (∀ i, i + 1 < made.length → outcomeAt outcomes i ≠ .udmaCrc) ∧
      (throughout = true → ∀ i, i + 1 = made.length →
        outcomeAt outcomes i = .success ∨
          outcomeAt outcomes i = .udmaCrc) := by
  have hat : ∀ i < made.length,
      made.getD i .success = outcomeAt outcomes i := by
    intro i hi
    rw [hmade] at hi ⊢
    rw [List.getD_eq_getElem?_getD, attempts_getElem? hi]
    rfl
  have hlength : read.resets.length = made.length := by
    rw [hread]
    exact length_resetsBehind made
  have hreads : ∀ i < made.length, read.resets[i]? =
      some (decide (i + 1 < made.length) &&
        (outcomeAt outcomes i ≠ .success && true)) := by
    intro i hi
    rw [hread, ← hat i hi]
    exact resetsBehind_getElem? made hi
  have hwrites : ∀ i < made.length, write.resets[i]? =
      some (decide (i + 1 < made.length) && (outcomeAt outcomes i ≠ .success &&
        !decide (outcomeAt outcomes i = .udmaCrc))) := by
    intro i hi
    rw [hwrite, ← hat i hi]
    exact resetsBehind_getElem? made hi
  constructor
  · rintro ⟨hcrc, hother, -, -⟩
    rw [hlength] at hcrc hother
    refine ⟨fun i hi hfails => ?_, fun hall i hi => ?_⟩
    · have hreset := (hcrc i (by omega) hfails).1
      rw [hreads i (by omega), hfails, decide_eq_true hi] at hreset
      cases hreset
    · by_contra hnot
      rw [not_or] at hnot
      have hreset := (hother i (by omega) (.inl hall) hnot.1 hnot.2).1
      rw [hreads i (by omega), decide_eq_false (by omega)] at hreset
      cases hreset
  · rintro ⟨hagain, hlast⟩
    constructor
    · rw [hlength]
      intro i hi hfails
      have hend : ¬i + 1 < made.length := fun hmore => hagain i hmore hfails
      rw [hreads i hi, hwrites i hi, decide_eq_false hend]
      exact ⟨rfl, rfl⟩
    · rw [hlength]
      intro i hi hcase hfailed hnot
      have hmore : i + 1 < made.length := by
        by_contra hend
        have hall := hcase.resolve_right hend
        rcases hlast hall i (by omega) with h | h
        · exact hfailed h
        · exact hnot h
      rw [hreads i hi, hwrites i hi, decide_eq_true hmore,
        decide_eq_true hfailed, decide_eq_false hnot]
      exact ⟨rfl, rfl⟩
    · rw [hread, hwrite, length_resetsBehind, length_resetsBehind]
    · rw [hread, hwrite]

end Paths

/-- Reads and writes with the bus master recover alike exactly when no attempt
which is tried again fails with a transmission error. -/
theorem recovery_agrees_iff (bus : Bus) {s s' : State} (lba lba' : ℕ)
    (sectorCount : ℕ) {reads writes : List (ℕ × Outcome)}
    (hreads : s.answers = readAnswers reads)
    (hwrites : s'.answers = writeAnswers writes)
    (hsame : writes.map Prod.snd = reads.map Prod.snd) :
    ∃ read write r r',
      readRecorded bus true s lba sectorCount = .ok (read, r) ∧
      writeRecorded bus true s' lba' sectorCount = .ok (write, r') ∧
      readSectors bus true s lba sectorCount = .ok (read.ret, r) ∧
      writeSectors bus true s' lba' sectorCount = .ok (write.ret, r') ∧
      ∀ throughout, Agrees throughout (outcomeAt (reads.map Prod.snd))
          read write ↔
        (∀ i, i + 1 <
            (attempts (batchCount sectorCount) (reads.map Prod.snd)).length →
          outcomeAt (reads.map Prod.snd) i ≠ .udmaCrc) ∧
        (throughout = true → ∀ i, i + 1 =
            (attempts (batchCount sectorCount) (reads.map Prod.snd)).length →
          outcomeAt (reads.map Prod.snd) i = .success ∨
            outcomeAt (reads.map Prod.snd) i = .udmaCrc) := by
  obtain ⟨r, hread⟩ := readRecorded_eq bus lba sectorCount hreads
  obtain ⟨r', hwrite⟩ := writeRecorded_eq bus lba' sectorCount hwrites
  rw [hsame] at hwrite
  exact ⟨_, _, r, r', hread, hwrite,
    transferSectors_of_recorded bus true hread,
    transferSectors_of_recorded bus true hwrite,
    fun throughout => agrees_iff rfl rfl rfl⟩

/-- A disk without data, with what the hardware is going to answer. -/
def answering (answers : List Answer) : State :=
  ⟨⟨0, 0, 0, 0, 0, 0⟩, fun _ _ => 0, fun _ => 0,
    fun _ => ⟨0, false, fun _ => 0⟩, answers, 0⟩

def firstBus : Bus := ⟨false, ⟨0, 0, 0, 0, 0, 0⟩, fun _ _ _ => 0⟩

/-- A time-out and then a success. -/
theorem recovery_agrees_after_timeout : ∃ read write r r',
    readRecorded firstBus true
      (answering (readAnswers [(0, .timeout), (1, .success)])) 0 1 =
        .ok (read, r) ∧
    writeRecorded firstBus true
      (answering (writeAnswers [(2, .timeout), (0, .success)])) 0 1 =
        .ok (write, r') ∧
    Agrees false (outcomeAt [.timeout, .success]) read write := by
  obtain ⟨read, write, r, r', hread, hwrite, -, -, hagrees⟩ :=
    @recovery_agrees_iff firstBus
      (answering (readAnswers [(0, .timeout), (1, .success)]))
      (answering (writeAnswers [(2, .timeout), (0, .success)])) 0 0 1
      [(0, .timeout), (1, .success)] [(2, .timeout), (0, .success)] rfl rfl
      rfl
  refine ⟨read, write, r, r', hread, hwrite, (hagrees false).2 ⟨?_, ?_⟩⟩
  · intro i hi
    have hzero : i = 0 := Nat.lt_one_iff.1 (Nat.lt_of_succ_lt_succ hi)
    rw [hzero]
    decide
  · exact fun h => nomatch h

/-- A transmission error and then a success: the disk is reset only on the
read. -/
theorem read_resets_after_crc : ∃ read write r r',
    readRecorded firstBus true
      (answering (readAnswers [(0, .udmaCrc), (0, .success)])) 0 1 =
        .ok (read, r) ∧
    writeRecorded firstBus true
      (answering (writeAnswers [(0, .udmaCrc), (0, .success)])) 0 1 =
        .ok (write, r') ∧
    read.resets = [true, false] ∧ write.resets = [false, false] ∧
    ¬Agrees false (outcomeAt [.udmaCrc, .success]) read write := by
  obtain ⟨r, hread⟩ := @readRecorded_eq firstBus
    (answering (readAnswers [(0, .udmaCrc), (0, .success)])) 0 1
    [(0, .udmaCrc), (0, .success)] rfl
  obtain ⟨r', hwrite⟩ := @writeRecorded_eq firstBus
    (answering (writeAnswers [(0, .udmaCrc), (0, .success)])) 0 1
    [(0, .udmaCrc), (0, .success)] rfl
  refine ⟨_, _, r, r', hread, hwrite, by decide, by decide, fun h => ?_⟩
  have hreset := (h.crc 0 (by decide) rfl).1
  cases hreset

end Ata
end Yjkos
