import Yjkos.InsertWhere
import Yjkos.Serial

/-!
# Newlines on the serial port

`stream_op_write` of `kernel/arch/i586/serial.c`.  A write is a sequence of
calls of `wait_and_send`, and what becomes of these is the run of the port in
which they are made.
-/

namespace Yjkos
namespace Serial

open InsertWhere

/-- `STREAM_MAX_TRANSFER_SIZE`, which the assertion on a write names. -/
def maxTransferSize : ℕ := 0x7fffffff

/-- The fields of `struct archi586_serial` which belong to the newlines. -/
structure Cport where
  crToCrlf : Bool
  cr : Bool
deriving DecidableEq

/-- One turn of the loop, with the bytes `wait_and_send` is called for. -/
def Cport.writeByte (cport : Cport) (c : BitVec 8) :
    List (BitVec 8) × Cport :=
  if cport.crToCrlf then
    let cport := if c = 13#8 then { cport with cr := true } else cport
    if c = 10#8 ∧ cport.cr = false then
      ([13#8, c], { cport with cr := false })
    else ([c], cport)
  else ([c], cport)

def Cport.writeBytes (cport : Cport) :
    List (BitVec 8) → List (BitVec 8) × Cport
  | [] => ([], cport)
  | c :: rest =>
      let (calls, cport) := cport.writeByte c
      let (more, cport) := cport.writeBytes rest
      (calls ++ more, cport)

/-- The number of bytes, which is returned, is the size of the chunk. -/
def streamOpWrite (cport : Cport) (data : List (BitVec 8)) :
    Except Fault (List (BitVec 8) × Cport) := do
  cAssert (data.length ≤ maxTransferSize) "size <= STREAM_MAX_TRANSFER_SIZE"
  .ok (cport.writeBytes data)

/-- The chunks which are written one after the other. -/
def writeChunks (cport : Cport) :
    List (List (BitVec 8)) → Except Fault (List (BitVec 8) × Cport)
  | [] => .ok ([], cport)
  | data :: chunks => do
      let (calls, cport) ← streamOpWrite cport data
      let (more, cport) ← writeChunks cport chunks
      .ok (calls ++ more, cport)

/-- A port behind `archi586_serial_init`, with `cr_to_crlf` set. -/
def newlinePort : Cport := ⟨true, false⟩

/-- A newline which does not follow a carriage return. -/
def bareNewline (past : List (BitVec 8)) (c : BitVec 8) : Bool :=
  decide (c = 10#8 ∧ past.getLast? ≠ some 13#8)

/-- A newline with no carriage return anywhere before it. -/
def firstNewline (past : List (BitVec 8)) (c : BitVec 8) : Bool :=
  decide (c = 10#8 ∧ 13#8 ∉ past)

/-- The stream with one carriage return in front of every bare newline. -/
def crlf (stream : List (BitVec 8)) : List (BitVec 8) :=
  insertWhere 13#8 bareNewline [] stream

/-- The flag says whether a carriage return has gone by. -/
def Cport.Remembers (cport : Cport) (past : List (BitVec 8)) : Prop :=
  cport.crToCrlf = true ∧ (cport.cr = true ↔ 13#8 ∈ past)

variable {cport : Cport} {past : List (BitVec 8)}

theorem writeByte_remembers (h : cport.Remembers past) (c : BitVec 8) :
    (cport.writeByte c).1 =
      (if firstNewline past c then [13#8, c] else [c]) ∧
    (cport.writeByte c).2.Remembers (past ++ [c]) := by
  obtain ⟨crToCrlf, cr⟩ := cport
  obtain ⟨rfl, hcr⟩ := h
  have hmem : 13#8 ∈ past ++ [c] ↔ 13#8 ∈ past ∨ c = 13#8 := by
    rw [List.mem_append, List.mem_singleton, eq_comm (a := c)]
  have hfirst : firstNewline past c = decide (c = 10#8 ∧ cr = false) := by
    unfold firstNewline
    rw [decide_eq_decide, ← Bool.not_eq_true, hcr]
  unfold Cport.Remembers
  rw [hfirst, hmem, ← hcr]
  unfold Cport.writeByte
  by_cases hreturn : c = 13#8
  · subst hreturn
    simp
  · by_cases hnewline : c = 10#8
    · subst hnewline
      cases cr <;> simp
    · simp [hreturn, hnewline]

theorem writeBytes_remembers (h : cport.Remembers past)
    (data : List (BitVec 8)) :
    (cport.writeBytes data).1 = insertWhere 13#8 firstNewline past data ∧
      (cport.writeBytes data).2.Remembers (past ++ data) := by
  induction data generalizing cport past with
  | nil => exact ⟨rfl, by simpa [Cport.writeBytes] using h⟩
  | cons c rest ih =>
      obtain ⟨hcalls, hnext⟩ := writeByte_remembers h c
      obtain ⟨hmore, hlast⟩ := ih hnext
      rw [List.append_assoc, List.singleton_append] at hlast
      refine ⟨?_, hlast⟩
      simp only [Cport.writeBytes, insertWhere, hcalls, hmore]

theorem writeChunks_remembers (h : cport.Remembers past)
    {chunks : List (List (BitVec 8))}
    (hsize : ∀ data ∈ chunks, data.length ≤ maxTransferSize) :
    ∃ cport', writeChunks cport chunks =
      .ok (insertWhere 13#8 firstNewline past chunks.flatten, cport') := by
  induction chunks generalizing cport past with
  | nil => exact ⟨cport, rfl⟩
  | cons data chunks ih =>
      rw [List.forall_mem_cons] at hsize
      obtain ⟨hcalls, hnext⟩ := writeBytes_remembers h data
      obtain ⟨cport', hmore⟩ := ih hnext hsize.2
      refine ⟨cport', ?_⟩
      rw [writeChunks, streamOpWrite, cAssert_of (decide_eq_true hsize.1)]
      simp only [ok_bind, hmore]
      rw [hcalls, List.flatten_cons, insertWhere_append]

/-- The bytes for which `wait_and_send` is called in a run. -/
def sends : List SerialStep → List (BitVec 8)
  | [] => []
  | .send ch :: steps => ch :: sends steps
  | _ :: steps => sends steps

variable {s t : State} {a : SerialStep}

theorem step_given (hstep : s.step a = .ok t) :
    t.given = s.given ++ sends [a] := by
  cases a with
  | send ch =>
      simp only [State.step] at hstep
      split at hstep
      next =>
        cases hstep
        rfl
      next => cases hstep
  | tryEnqueue =>
      simp only [State.step] at hstep
      split at hstep
      next =>
        obtain ⟨⟨ret, txQueue⟩, _, ht⟩ := bind_eq_ok (mapError_ok hstep)
        cases ht
        exact (List.append_nil _).symm
      next => cases hstep
  | pollLsr =>
      simp only [State.step] at hstep
      split at hstep
      next =>
        cases hstep
        unfold State.pollLsr
        split <;> exact (List.append_nil _).symm
      next => cases hstep
  | writeData =>
      simp only [State.step] at hstep
      split at hstep
      next =>
        cases hstep
        exact (List.append_nil _).symm
      next => cases hstep
  | interrupt iir data =>
      simp only [State.step] at hstep
      split at hstep
      next =>
        have hok := mapError_ok hstep
        unfold State.interrupt at hok
        split at hok
        next =>
          cases hok
          exact (List.append_nil _).symm
        next =>
          split at hok
          next =>
            obtain ⟨⟨ret, rxQueue⟩, _, ht⟩ := bind_eq_ok hok
            cases ht
            exact (List.append_nil _).symm
          next =>
            cases hok
            exact (List.append_nil _).symm
      next => cases hstep
  | drain =>
      simp only [State.step] at hstep
      split at hstep
      next =>
        obtain ⟨⟨data, txQueue⟩, _, ht⟩ := bind_eq_ok (mapError_ok hstep)
        cases data with
        | none =>
            cases ht
            exact (List.append_nil _).symm
        | some data =>
            cases ht
            exact (List.append_nil _).symm
      next => cases hstep
  | lineStatus lsr =>
      cases hstep
      exact (List.append_nil _).symm

theorem sends_cons (a : SerialStep) (steps : List SerialStep) :
    sends (a :: steps) = sends [a] ++ sends steps := by
  cases a <;> rfl

theorem run_given {steps : List SerialStep}
    (hrun : TransitionRun.run State.step s steps = .ok t) :
    t.given = s.given ++ sends steps := by
  induction steps generalizing s with
  | nil =>
      cases hrun
      exact (List.append_nil _).symm
  | cons a steps ih =>
      simp only [TransitionRun.run] at hrun
      split at hrun
      next s' hstep =>
        rw [ih hrun, step_given hstep, sends_cons a steps, List.append_assoc]
      next => cases hrun

/-- In a run of the port whose steps are all taken in turn, the bytes of the
calls are written once the queue has been drained and the last call has
returned. -/
theorem run_written {lsr : BitVec 8} {steps : List SerialStep}
    (hturn : TransitionRun.Admitted InTurn State.step (State.initial lsr)
      steps)
    (hrun : TransitionRun.run State.step (State.initial lsr) steps = .ok t)
    (hqueue : t.txQueue.isEmpty = true) (hplace : t.place = .outside) :
    t.written = sends steps := by
  have hreach : TransitionRun.Reachable (· = State.initial lsr) InTurn
      State.step (State.initial lsr) := .start rfl
  have hinv : SerialInv t := by
    refine TransitionRun.Reachable.invariant ?_ ?_ (hreach.run hturn hrun)
    · rintro _ rfl
      exact initial_serialInv lsr
    · intro s a s' h hgood hok
      exact ⟨((keepsOrder_iff h a).2 hgood).order s' hok, step_received h hok⟩
  rw [hinv.transit.drained hqueue hplace, run_given hrun]
  rfl

theorem firstNewline_eq_iff (past : List (BitVec 8)) (c : BitVec 8) :
    firstNewline past c = bareNewline past c ↔
      (c = 10#8 → 13#8 ∈ past → past.getLast? = some 13#8) := by
  have hlast : past.getLast? = some 13#8 → 13#8 ∈ past := List.mem_of_getLast?
  unfold firstNewline bareNewline
  rw [decide_eq_decide]
  constructor
  · intro h hnewline hmem
    by_contra hne
    exact (h.2 ⟨hnewline, hne⟩).2 hmem
  · intro h
    constructor
    · exact fun ⟨hnewline, hnone⟩ => ⟨hnewline, fun heq => hnone (hlast heq)⟩
    · exact fun ⟨hnewline, hne⟩ => ⟨hnewline, fun hmem => hne (h hnewline hmem)⟩

/-- The calls are made for the stream with its newlines translated exactly
when every newline with a carriage return somewhere before it has one right
before it.  What the calls are made for is written by a port which takes its
steps in turn. -/
theorem newlines_translated_iff {chunks : List (List (BitVec 8))}
    (hsize : ∀ data ∈ chunks, data.length ≤ maxTransferSize) :
    ∃ calls cport, writeChunks newlinePort chunks = .ok (calls, cport) ∧
      (∀ lsr steps t,
        TransitionRun.Admitted InTurn State.step (State.initial lsr) steps →
        TransitionRun.run State.step (State.initial lsr) steps = .ok t →
        sends steps = calls → t.txQueue.isEmpty = true →
        t.place = .outside → t.written = calls) ∧
      (calls = crlf chunks.flatten ↔
        ∀ front back, chunks.flatten = front ++ 10#8 :: back →
          13#8 ∈ front → front.getLast? = some 13#8) := by
  have hnew : newlinePort.Remembers [] := ⟨rfl, by simp [newlinePort]⟩
  obtain ⟨cport, hok⟩ := writeChunks_remembers hnew hsize
  refine ⟨_, cport, hok, ?_, ?_⟩
  · intro lsr steps t hturn hrun hcalls hqueue hplace
    rw [← hcalls]
    exact run_written hturn hrun hqueue hplace
  · have hmark : ∀ past c, firstNewline past c = true → c ≠ 13#8 := by
      rintro past _ h rfl
      simp [firstNewline] at h
    have hmark' : ∀ past c, bareNewline past c = true → c ≠ 13#8 := by
      rintro past _ h rfl
      simp [bareNewline] at h
    rw [crlf, insertWhere_eq_iff hmark hmark']
    simp only [List.nil_append, firstNewline_eq_iff]
    constructor
    · exact fun h front back heq => h front 10#8 back heq rfl
    · rintro h front _ back heq rfl
      exact h front back heq

theorem two_lines_translated :
    ∃ calls cport, writeChunks newlinePort [[0x61#8], [10#8, 13#8], [10#8]] =
        .ok (calls, cport) ∧
      calls = [0x61#8, 13#8, 10#8, 13#8, 10#8] ∧
      ∀ front back, [0x61#8, 10#8, 13#8, 10#8] = front ++ 10#8 :: back →
        13#8 ∈ front → front.getLast? = some 13#8 := by
  obtain ⟨calls, cport, hok, _, hiff⟩ := newlines_translated_iff
    (show ∀ data ∈ [[0x61#8], [10#8, 13#8], [10#8]],
      data.length ≤ maxTransferSize by decide)
  cases hok
  exact ⟨_, _, rfl, rfl, hiff.1 (by decide)⟩

/-- After a first carriage return no newline is translated any more. -/
theorem later_newline_stays_bare : ¬ ∀ chunks : List (List (BitVec 8)),
    (∀ data ∈ chunks, data.length ≤ maxTransferSize) →
    ∀ calls cport, writeChunks newlinePort chunks = .ok (calls, cport) →
      calls = crlf chunks.flatten := by
  intro hall
  have heq := hall [[13#8, 0x61#8], [10#8]] (by decide) _ _ rfl
  revert heq
  decide

end Serial
end Yjkos
