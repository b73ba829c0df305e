import Yjkos.Ps2Decode

/-!
# The queue of keyboard commands

What a received byte does to the commands is an answer to the one at the back
of the queue.  The log of the commands tells in which order they were queued,
sent and finished.
-/

namespace Yjkos
namespace Ps2Kbd

/-- What becomes of the command at the back of the queue. -/
inductive Answer where
  | nothing
  | resent (cmd : ℕ) (x : CmdContext)
  | finished (cmd : ℕ) (x : CmdContext) (finalstate : CmdState)
deriving DecidableEq

namespace Kbdcontext

/-- The answer which a byte is to a command that waits for one. -/
def answerTo (s : Kbdcontext) (byte : BitVec 8) (cmd : ℕ) (x : CmdContext) :
    Answer :=
  if x.state ≠ .waitingresponse then .nothing
  else if byte = responseAck then
    if x.needdata then .nothing else .finished cmd x .success
  else if byte = responseResend then
    if 0 < x.resendcount ∧ !x.noretry then
      .resent cmd { x with resendcount := x.resendcount - 1 }
    else .finished cmd x .failed
  else if byte = cmdEcho then
    if x.cmdbyte ≠ cmdEcho then .nothing else .finished cmd x .success
  else if s.state = .waitingResponsedata then
    .finished cmd { x with responsedata := byte } .success
  else .nothing

/-- The answer which a byte is in the current state. -/
def answer (s : Kbdcontext) (byte : BitVec 8) : Answer :=
  match s.back with
  | none => .nothing
  | some cmd =>
      match s.heap cmd with
      | none => .nothing
      | some x => s.answerTo byte cmd x

end Kbdcontext

/-- The commands behind an answer. -/
def Commands.answered (c : Commands) (putOk : Bool) :
    Answer → Except Fault Commands
  | .nothing => .ok c
  | .resent cmd x =>
      if putOk then .ok ((c.write cmd x).record (.resent cmd))
      else .ok (c.write cmd { x with state := .failed })
  | .finished cmd x finalstate => (c.write cmd x).cmdFinished finalstate putOk

theorem Commands.write_self {c : Commands} {cmd : ℕ} {x : CmdContext}
    (h : c.heap cmd = some x) : c.write cmd x = c := by
  unfold Commands.write
  rw [← h, Function.update_eq_self]

namespace Kbdcontext

/-- The command at the back has not been freed. -/
def BackLives (s : Kbdcontext) : Prop :=
  ∀ cmd, s.back = some cmd → ∃ x, s.heap cmd = some x

/-- A handler whose commands are those behind the answer, and which stops only
where the answer does or at a report. -/
structure Answers (s : Kbdcontext) (putOk : Bool) (answer : Answer)
    (x : Except Fault Kbdcontext) : Prop where
  ok : ∀ s', x = .ok s' → s.toCommands.answered putOk answer = .ok s'.toCommands
  stops : ∀ e, x = .error e → e = .assertion "false" ∨
    s.toCommands.answered putOk answer = .error e

variable {s : Kbdcontext} {putOk : Bool}

theorem answers_nothing {t : Kbdcontext}
    (hsame : t.toCommands = s.toCommands) :
    Answers s putOk .nothing (.ok t) := by
  refine ⟨?_, nofun⟩
  rintro s' heq
  cases heq
  rw [hsame]
  rfl

theorem answers_map {answer : Answer} {f : Commands → Kbdcontext}
    (hf : ∀ c, (f c).toCommands = c) {x : Except Fault Commands}
    (hx : s.toCommands.answered putOk answer = x) :
    Answers s putOk answer (do
      let c ← x
      .ok (f c)) := by
  subst hx
  cases hx : s.toCommands.answered putOk answer with
  | error e =>
      refine ⟨nofun, ?_⟩
      rintro e' heq
      cases heq
      exact Or.inr hx
  | ok c =>
      refine ⟨?_, nofun⟩
      rintro s' heq
      cases heq
      rw [hx, hf]

theorem ackReceived_answers (h : s.BackLives) :
    Answers s putOk (s.answer responseAck) (s.ackReceived putOk) := by
  unfold ackReceived answer
  cases hback : s.back with
  | none => exact answers_nothing rfl
  | some cmd =>
      obtain ⟨x, hx⟩ := h cmd hback
      simp only [Commands.cmdAt, hx, ok_bind, answerTo, if_true]
      split
      next => exact answers_nothing rfl
      next =>
        split
        next => exact answers_nothing rfl
        next =>
          refine answers_map (fun _ => rfl) ?_
          rw [Commands.answered, Commands.write_self hx]

theorem resendReceived_answers (h : s.BackLives) :
    Answers s putOk (s.answer responseResend) (s.resendReceived putOk) := by
  have hne : responseResend ≠ responseAck := by decide
  unfold resendReceived answer
  cases hback : s.back with
  | none => exact answers_nothing rfl
  | some cmd =>
      obtain ⟨x, hx⟩ := h cmd hback
      simp only [Commands.cmdAt, hx, ok_bind, answerTo, if_neg hne, if_true]
      split
      next => exact answers_nothing rfl
      next =>
        split
        next =>
          cases putOk with
          | true => exact ⟨fun s' heq => by cases heq; rfl, nofun⟩
          | false => exact ⟨fun s' heq => by cases heq; rfl, nofun⟩
        next =>
          refine answers_map (fun _ => rfl) ?_
          rw [Commands.answered, Commands.write_self hx]

theorem echoReceived_answers (h : s.BackLives) :
    Answers s putOk (s.answer cmdEcho) (s.echoReceived putOk) := by
  have hack : cmdEcho ≠ responseAck := by decide
  have hresend : cmdEcho ≠ responseResend := by decide
  unfold echoReceived answer
  cases hback : s.back with
  | none => exact answers_nothing rfl
  | some cmd =>
      obtain ⟨x, hx⟩ := h cmd hback
      simp only [Commands.cmdAt, hx, ok_bind, answerTo, if_neg hack,
        if_neg hresend, if_true]
      split
      next => exact answers_nothing rfl
      next =>
        split
        next => exact answers_nothing rfl
        next =>
          refine answers_map (fun _ => rfl) ?_
          rw [Commands.answered, Commands.write_self hx]

theorem responseByteReceived_answers (h : s.BackLives) {byte : BitVec 8}
    (hbyte : IsScancode byte) (hstate : s.state = .waitingResponsedata) :
    Answers s putOk (s.answer byte) (s.responseByteReceived byte putOk) := by
  obtain ⟨hack, hresend, hecho⟩ := hbyte
  unfold responseByteReceived answer
  cases hback : s.back with
  | none => exact answers_nothing rfl
  | some cmd =>
      obtain ⟨x, hx⟩ := h cmd hback
      simp only [Commands.cmdAt, hx, ok_bind, answerTo, if_neg hack,
        if_neg hresend, if_neg hecho, if_pos hstate]
      split
      next => exact answers_nothing rfl
      next => exact answers_map (fun _ => rfl) rfl

theorem scancodeReceived_answers {byte : BitVec 8} (hbyte : IsScancode byte)
    (hstate : s.state ≠ .waitingResponsedata) :
    Answers s putOk (s.answer byte) (s.scancodeReceived byte putOk) := by
  obtain ⟨hack, hresend, hecho⟩ := hbyte
  have hnothing : s.answer byte = .nothing := by
    unfold answer
    split
    next => rfl
    next cmd _ =>
      split
      next => rfl
      next x _ =>
        simp only [answerTo, if_neg hack, if_neg hresend, if_neg hecho,
          if_neg hstate, ite_self]
  rw [hnothing]
  have hsame := scancodeReceived_withCommands s s.toCommands hstate byte putOk
    putOk
  constructor
  · intro s' hs'
    rw [withCommands_self, hs'] at hsame
    have heq : s' = s'.withCommands s.toCommands := by
      simpa [Except.map] using hsame
    rw [heq]
    rfl
  · intro e he
    exact Or.inl ((scancodeReceived_awaitsNone hstate byte putOk).stops e he)

theorem storeKeyByte_error {byte : BitVec 8} {e : Fault}
    (h : s.storeKeyByte byte = .error e) : e = .outOfBounds := by
  unfold storeKeyByte at h
  dsimp only at h
  generalize (if s.state = .default then 0 else s.nextKeyByteIndex) = i at h
  split at h
  next => cases h
  next =>
    cases h
    rfl

theorem answerTo_cases (s : Kbdcontext) (byte : BitVec 8) (cmd : ℕ)
    (y : CmdContext) :
    s.answerTo byte cmd y = .nothing ∨
    (∃ x, s.answerTo byte cmd y = .resent cmd x ∧ x.state = y.state ∧
      x.async = y.async) ∨
    ∃ x finalstate, s.answerTo byte cmd y = .finished cmd x finalstate ∧
      x.async = y.async := by
  unfold answerTo
  split
  next => exact Or.inl rfl
  next =>
    split
    next =>
      split
      next => exact Or.inl rfl
      next => exact Or.inr (Or.inr ⟨_, _, rfl, rfl⟩)
    next =>
      split
      next =>
        split
        next => exact Or.inr (Or.inl ⟨_, rfl, rfl, rfl⟩)
        next => exact Or.inr (Or.inr ⟨_, _, rfl, rfl⟩)
      next =>
        split
        next =>
          split
          next => exact Or.inl rfl
          next => exact Or.inr (Or.inr ⟨_, _, rfl, rfl⟩)
        next =>
          split
          next => exact Or.inr (Or.inr ⟨_, _, rfl, rfl⟩)
          next => exact Or.inl rfl

theorem answer_cases (s : Kbdcontext) (byte : BitVec 8) :
    s.answer byte = .nothing ∨ ∃ cmd y, s.back = some cmd ∧
      s.heap cmd = some y ∧
      ((∃ x, s.answer byte = .resent cmd x ∧ x.state = y.state ∧
          x.async = y.async) ∨
        ∃ x finalstate, s.answer byte = .finished cmd x finalstate ∧
          x.async = y.async) := by
  unfold answer
  cases hback : s.back with
  | none => exact Or.inl rfl
  | some cmd =>
      cases hy : s.heap cmd with
      | none =>
          simp only [hy]
          exact Or.inl trivial
      | some y =>
          simp only [hy]
          rcases answerTo_cases s byte cmd y with hnothing | hanswer
          · exact Or.inl hnothing
          · exact Or.inr ⟨cmd, y, rfl, hy, hanswer⟩

theorem opBytereceived_answers (h : s.BackLives) (byte : BitVec 8)
    (putOk : Bool) :
    (∀ s', s.opBytereceived byte putOk = .ok s' →
      s.toCommands.answered putOk (s.answer byte) = .ok s'.toCommands) ∧
    (s.opBytereceived byte putOk = .error .wildPointer →
      s.toCommands.answered putOk (s.answer byte) = .error .wildPointer) := by
  unfold opBytereceived
  cases hstore : s.storeKeyByte byte with
  | error e =>
      refine ⟨nofun, ?_⟩
      intro heq
      cases heq
      cases storeKeyByte_error hstore
  | ok t =>
      have hsame := storeKeyByte_stored s hstore
      have hlive : t.BackLives := by
        unfold BackLives
        rw [hsame.commands]
        exact h
      have hanswer : t.answer byte = s.answer byte := by
        unfold answer answerTo
        rw [hsame.commands, hsame.state]
      have hanswers : Answers t putOk (t.answer byte)
          (if byte = responseAck then t.ackReceived putOk
          else if byte = responseResend then t.resendReceived putOk
          else if byte = cmdEcho then t.echoReceived putOk
          else t.scancodeReceived byte putOk) := by
        split
        next hack =>
          rw [hack]
          exact ackReceived_answers hlive
        next hack =>
          split
          next hresend =>
            rw [hresend]
            exact resendReceived_answers hlive
          next hresend =>
            split
            next hecho =>
              rw [hecho]
              exact echoReceived_answers hlive
            next hecho =>
              by_cases hstate : t.state = .waitingResponsedata
              · have hgoes : t.scancodeReceived byte putOk =
                    t.responseByteReceived byte putOk := by
                  simp only [scancodeReceived, hstate]
                rw [hgoes]
                exact responseByteReceived_answers hlive
                  ⟨hack, hresend, hecho⟩ hstate
              · exact scancodeReceived_answers ⟨hack, hresend, hecho⟩ hstate
      rw [hanswer] at hanswers
      rw [← hsame.commands]
      constructor
      · exact hanswers.ok
      · intro heq
        rcases hanswers.stops _ heq with hfalse | hstop
        · cases hfalse
        · exact hstop

end Kbdcontext

def CmdEvent.inserted? : CmdEvent → Option ℕ
  | inserted cmd => some cmd
  | _ => none

def CmdEvent.sent? : CmdEvent → Option ℕ
  | sent cmd => some cmd
  | _ => none

def CmdEvent.finished? : CmdEvent → Option ℕ
  | finished cmd => some cmd
  | _ => none

namespace Commands

/-- The commands in the order in which they were queued. -/
def insertedOf (c : Commands) : List ℕ :=
  c.log.reverse.filterMap CmdEvent.inserted?

/-- The commands in the order in which they were sent for the first time. -/
def sentOf (c : Commands) : List ℕ :=
  c.log.reverse.filterMap CmdEvent.sent?

def finishedOf (c : Commands) : List ℕ :=
  c.log.reverse.filterMap CmdEvent.finished?

variable {c c' : Commands}

theorem filterMap_cons_event {f : CmdEvent → Option ℕ} {event : CmdEvent}
    {log : List CmdEvent} :
    (event :: log).reverse.filterMap f =
      log.reverse.filterMap f ++ (f event).toList := by
  rw [List.reverse_cons, List.filterMap_append]
  cases h : f event <;> simp [h]

theorem insertedOf_record (c : Commands) (event : CmdEvent) :
    (c.record event).insertedOf = c.insertedOf ++ event.inserted?.toList :=
  filterMap_cons_event

theorem sentOf_record (c : Commands) (event : CmdEvent) :
    (c.record event).sentOf = c.sentOf ++ event.sent?.toList :=
  filterMap_cons_event

theorem finishedOf_record (c : Commands) (event : CmdEvent) :
    (c.record event).finishedOf = c.finishedOf ++ event.finished?.toList :=
  filterMap_cons_event

theorem insertFront_ok {cmd : ℕ} (h : c.insertFront cmd = .ok c') :
    c' = { c with cmdQueue := cmd :: c.cmdQueue } := by
  unfold insertFront at h
  split at h
  next hqueue =>
    cases h
    rw [hqueue]
  next front rest hqueue =>
    obtain ⟨x, _, hx⟩ := bind_eq_ok h
    cases hx
    rw [hqueue]

theorem cmdAt_ok {cmd : ℕ} {x : CmdContext} (h : c.cmdAt cmd = .ok x) :
    c.heap cmd = some x := by
  unfold cmdAt at h
  split at h
  next hx =>
    cases h
    exact hx
  next => cases h

theorem cmdAt_error {cmd : ℕ} {x : CmdContext} (hx : c.heap cmd = some x)
    (e : Fault) : c.cmdAt cmd ≠ .error e := by
  unfold cmdAt
  rw [hx]
  nofun

theorem insertFront_live
    (hlive : ∀ cmd ∈ c.cmdQueue, ∃ x, c.heap cmd = some x) (cmd : ℕ)
    (e : Fault) : c.insertFront cmd ≠ .error e := by
  unfold insertFront
  split
  next => nofun
  next front rest hqueue =>
    obtain ⟨x, hx⟩ := hlive front (by rw [hqueue]; exact List.mem_cons_self)
    rw [cmdAt, hx]
    nofun

/-- The queue behind `cmd_finished`, before the next command is sent. -/
def finish (c : Commands) (queue : List ℕ) (cmd : ℕ) (x : CmdContext)
    (finalstate : CmdState) : Commands where
  cmdQueue := queue
  heap := Function.update c.heap cmd
    (if x.async then none else some { x with state := finalstate })
  log := .finished cmd :: c.log

theorem cmdFinished_eq {queue : List ℕ} {cmd : ℕ} {x : CmdContext}
    (hqueue : c.cmdQueue = queue ++ [cmd]) (hx : c.heap cmd = some x)
    (finalstate : CmdState) (putOk : Bool) :
    c.cmdFinished finalstate putOk =
      (c.finish queue cmd x finalstate).sendNext putOk := by
  have hback : c.back = some cmd := by
    rw [back, hqueue, List.getLast?_concat]
  have hdrop : c.cmdQueue.dropLast = queue := by
    rw [hqueue, List.dropLast_concat]
  simp only [cmdFinished, hback, hdrop, cmdAt, hx, ok_bind, write, record,
    free, finish]
  cases x.async with
  | true => simp only [if_true, Function.update_idem]
  | false => rfl

theorem answered_finished {queue : List ℕ} {cmd : ℕ} {x : CmdContext}
    (hqueue : c.cmdQueue = queue ++ [cmd]) (finalstate : CmdState)
    (putOk : Bool) :
    c.answered putOk (.finished cmd x finalstate) =
      ((c.write cmd x).finish queue cmd x finalstate).sendNext putOk :=
  cmdFinished_eq (c := c.write cmd x) hqueue (Function.update_self _ _ _)
    finalstate putOk

theorem sendNext_none (hback : c.back = none) (putOk : Bool) :
    c.sendNext putOk = .ok c := by
  unfold sendNext
  rw [hback]

theorem sendNext_some {cmd : ℕ} {x : CmdContext} (hback : c.back = some cmd)
    (hx : c.heap cmd = some x) :
    c.sendNext true =
      .ok ((c.write cmd { x with state := .waitingresponse }).record
        (.sent cmd)) := by
  unfold sendNext
  rw [hback]
  simp only [cmdAt, hx, ok_bind, if_true]

/-- The commands behind one which is finished, when the next one has been
sent. -/
structure FinishedOne (c c' : Commands) (queue : List ℕ) (cmd : ℕ)
    (async : Bool) : Prop where
  queue : c'.cmdQueue = queue
  inserted : c'.insertedOf = c.insertedOf
  finished : c'.finishedOf = c.finishedOf ++ [cmd]
  sent : c'.sentOf = c.sentOf ++ c'.back.toList
  others : ∀ a ≠ cmd, ∀ z, c.heap a = some z → ∃ z', c'.heap a = some z' ∧
    z'.async = z.async ∧
    z'.state = if c'.back = some a then .waitingresponse else z.state
  kept : async = false → ∃ z, c'.heap cmd = some z ∧ z.async = false

variable {queue : List ℕ} {cmd : ℕ} {x : CmdContext} {finalstate : CmdState}

theorem finish_others {a : ℕ} (ha : a ≠ cmd) :
    ((c.write cmd x).finish queue cmd x finalstate).heap a = c.heap a :=
  (Function.update_of_ne ha _ _).trans (Function.update_of_ne ha _ _)

theorem finish_kept (hasync : x.async = false) :
    ((c.write cmd x).finish queue cmd x finalstate).heap cmd =
      some { x with state := finalstate } := by
  refine (Function.update_self _ _ _).trans ?_
  rw [hasync]
  rfl

theorem answered_finishedOne {putOk : Bool} (x : CmdContext)
    (finalstate : CmdState) (hqueue : c.cmdQueue = queue ++ [cmd])
    (honce : c.cmdQueue.Nodup) (hlive : ∀ a ∈ queue, ∃ z, c.heap a = some z)
    (hput : queue ≠ [] → putOk = true) :
    ∃ c', c.answered putOk (.finished cmd x finalstate) = .ok c' ∧
      FinishedOne c c' queue cmd x.async := by
  obtain ⟨f, hf⟩ : ∃ f, f = (c.write cmd x).finish queue cmd x finalstate :=
    ⟨_, rfl⟩
  have hinserted : f.insertedOf = c.insertedOf := by
    rw [hf]
    exact filterMap_cons_event.trans (List.append_nil _)
  have hsent : f.sentOf = c.sentOf := by
    rw [hf]
    exact filterMap_cons_event.trans (List.append_nil _)
  have hfinished : f.finishedOf = c.finishedOf ++ [cmd] := by
    rw [hf]
    exact filterMap_cons_event
  have hfqueue : f.cmdQueue = queue := by rw [hf]; rfl
  have hothers : ∀ a ≠ cmd, f.heap a = c.heap a := by
    intro a ha
    rw [hf, finish_others ha]
  have hkept : x.async = false → f.heap cmd =
      some { x with state := finalstate } := by
    intro hasync
    rw [hf, finish_kept hasync]
  rw [answered_finished hqueue, ← hf]
  cases hback : f.back with
  | none =>
      refine ⟨f, sendNext_none hback putOk, ⟨hfqueue, hinserted, hfinished,
        ?_, ?_, ?_⟩⟩
      · rw [hsent, hback]
        exact (List.append_nil _).symm
      · intro a ha z hz
        refine ⟨z, (hothers a ha).trans hz, rfl, ?_⟩
        rw [hback, if_neg nofun]
      · intro hasync
        exact ⟨_, hkept hasync, hasync⟩
  | some next =>
      have hmem : next ∈ queue := by
        rw [← hfqueue]
        exact List.mem_of_getLast? hback
      have hne : next ≠ cmd := by
        rintro rfl
        rw [hqueue, List.nodup_append] at honce
        exact honce.2.2 next hmem next (List.mem_singleton_self _) rfl
      obtain ⟨z, hz⟩ := hlive next hmem
      have hput : putOk = true := hput (List.ne_nil_of_mem hmem)
      subst hput
      refine ⟨_, sendNext_some hback ((hothers next hne).trans hz),
        ⟨hfqueue, ?_, ?_, ?_, ?_, ?_⟩⟩
      · rw [insertedOf_record]
        exact (List.append_nil _).trans hinserted
      · rw [finishedOf_record]
        exact (List.append_nil _).trans hfinished
      · rw [sentOf_record]
        show f.sentOf ++ [next] = c.sentOf ++ f.back.toList
        rw [hsent, hback]
        rfl
      · intro a ha w hw
        show ∃ z', Function.update f.heap next _ a = some z' ∧ _ ∧
          z'.state = if f.back = some a then _ else _
        rw [hback]
        by_cases hnext : next = a
        · subst hnext
          obtain rfl : z = w := Option.some.inj (hz.symm.trans hw)
          exact ⟨_, Function.update_self _ _ _, rfl, (if_pos rfl).symm⟩
        · refine ⟨w, ?_, rfl, ?_⟩
          · rw [Function.update_of_ne (Ne.symm hnext), hothers a ha, hw]
          · rw [if_neg]
            intro heq
            exact hnext (Option.some.inj heq)
      · intro hasync
        exact ⟨_, (Function.update_of_ne hne.symm _ _).trans (hkept hasync),
          hasync⟩

end Commands

end Ps2Kbd
end Yjkos
