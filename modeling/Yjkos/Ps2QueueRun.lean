import Yjkos.Ps2Queue
import Yjkos.Ps2Bytes

/-!
# Runs of the command queue

A run is in order when every request finds the queue as it has tested it,
every write to the port succeeds, every received byte is stored in its array,
and none finishes a command which its call has still to send.  Then the
commands are sent and finished in the order in which they were queued.
-/

namespace Yjkos
namespace Ps2Kbd

namespace Keyboard

/-- The call which queued the command has still to send it. -/
def AboutToSend (k : Keyboard) (cmd : ℕ) : Prop :=
  ∃ r, k.calls cmd = some r ∧ r.place = .sending

/-- The command has been sent, and the device has not answered it. -/
structure SentUnanswered (k : Keyboard) (cmd : ℕ) : Prop where
  sent : cmd ∈ k.ctx.sentOf
  unfinished : cmd ∉ k.ctx.finishedOf
  waits : ∃ x, k.ctx.heap cmd = some x ∧ x.state = .waitingresponse

/-- What is promised of the queue.  Commands are sent in the order in which
they are queued, and each is in the queue until it is finished, once. -/
structure QueueSound (k : Keyboard) : Prop where
  back : ∀ cmd, k.ctx.back = some cmd →
    SentUnanswered k cmd ∨ AboutToSend k cmd
  sent : k.ctx.sentOf <+: k.ctx.insertedOf
  finished : k.ctx.insertedOf = k.ctx.finishedOf ++ k.ctx.cmdQueue.reverse
  once : k.ctx.insertedOf.Nodup
  live : ∀ cmd ∈ k.ctx.cmdQueue, ∃ x, k.ctx.heap cmd = some x

/-- A step touches no freed command and nothing behind the stored bytes, and
leaves the queue as promised. -/
def KeepsQueue (k : Keyboard) (a : Ps2Step) : Prop :=
  k.step a ≠ .error (.fault .wildPointer) ∧ KeepsIndex k a ∧
    ∀ k', k.step a = .ok k' → QueueSound k'

/-- Whether the handler writes to the port for an answer. -/
def Puts (k : Keyboard) : Answer → Prop
  | .nothing => False
  | .resent _ _ => True
  | .finished _ _ _ => 2 ≤ k.ctx.cmdQueue.length

def Finishes : Answer → Prop
  | .finished _ _ _ => True
  | _ => False

/-- A request finds the queue empty when it inserts exactly if it has found it
empty before, writes to the port succeed, and a byte is stored in its array and
finishes no command which its call has still to send. -/
def InOrder (k : Keyboard) : Ps2Step → Prop
  | .byteReceived byte putOk =>
      (Finishes (k.ctx.answer byte) →
        ∀ cmd, k.ctx.back = some cmd → ¬ AboutToSend k cmd) ∧
      (Puts k (k.ctx.answer byte) → putOk = true) ∧ k.ctx.InArray
  | .insert call => ∀ r isqueueempty, k.calls call = some r →
      r.place = .tested isqueueempty →
      (isqueueempty = true ↔ k.ctx.cmdQueue = [])
  | .send _ putOk => putOk = true
  | _ => True

/-- The invariant of a run in order. -/
structure Orderly (k : Keyboard) : Prop where
  fresh : ∀ c, k.requested ≤ c → k.calls c = none ∧ c ∉ k.ctx.insertedOf
  finished : k.ctx.insertedOf = k.ctx.finishedOf ++ k.ctx.cmdQueue.reverse
  once : k.ctx.insertedOf.Nodup
  sentBefore : (∀ cmd, k.ctx.back = some cmd → AboutToSend k cmd) →
    k.ctx.sentOf = k.ctx.finishedOf
  sentBack : ∀ cmd, k.ctx.back = some cmd → ¬ AboutToSend k cmd →
    k.ctx.sentOf = k.ctx.finishedOf ++ [cmd]
  states : ∀ cmd ∈ k.ctx.cmdQueue, ∃ x, k.ctx.heap cmd = some x ∧
    x.state = if k.ctx.back = some cmd then .waitingresponse else .queued
  sending : ∀ cmd, AboutToSend k cmd → k.ctx.back = some cmd
  tested : ∀ c r isqueueempty, k.calls c = some r →
    r.place = .tested isqueueempty → c ∉ k.ctx.insertedOf ∧
      ∃ x, k.ctx.heap c = some x ∧
        x.state = if isqueueempty then .waitingresponse else .queued
  held : ∀ c r, k.calls c = some r → r.place ≠ .returned →
    ∃ x, k.ctx.heap c = some x ∧ x.async = r.async
  waiting : ∀ c r, k.calls c = some r → r.place = .waiting → r.async = false

variable {k k' : Keyboard}

theorem Orderly.mem_inserted (h : Orderly k) {cmd : ℕ}
    (hmem : cmd ∈ k.ctx.cmdQueue) : cmd ∈ k.ctx.insertedOf := by
  rw [h.finished, List.mem_append, List.mem_reverse]
  exact Or.inr hmem

theorem back_mem {c : Commands} {cmd : ℕ} (hback : c.back = some cmd) :
    cmd ∈ c.cmdQueue := List.mem_of_getLast? hback

theorem Orderly.queueSound (h : Orderly k) : QueueSound k := by
  refine ⟨?_, ?_, h.finished, h.once, ?_⟩
  · intro cmd hback
    by_cases hsending : AboutToSend k cmd
    · exact Or.inr hsending
    · have hsent := h.sentBack cmd hback hsending
      obtain ⟨x, hx, hstate⟩ := h.states cmd (back_mem hback)
      rw [if_pos hback] at hstate
      refine Or.inl ⟨?_, ?_, x, hx, hstate⟩
      · rw [hsent]
        simp
      · intro hfinished
        have honce := h.once
        rw [h.finished] at honce
        exact (List.nodup_append.1 honce).2.2 cmd hfinished cmd
          (List.mem_reverse.2 (back_mem hback)) rfl
  · rw [h.finished]
    by_cases hsending : ∀ cmd, k.ctx.back = some cmd → AboutToSend k cmd
    · rw [h.sentBefore hsending]
      exact List.prefix_append _ _
    · push Not at hsending
      obtain ⟨cmd, hback, hsent⟩ := hsending
      obtain ⟨queue, hqueue⟩ := List.getLast?_eq_some_iff.1 hback
      rw [h.sentBack cmd hback hsent, hqueue, List.reverse_append,
        List.reverse_singleton, ← List.append_assoc]
      exact List.prefix_append _ _
  · intro cmd hmem
    obtain ⟨x, hx, _⟩ := h.states cmd hmem
    exact ⟨x, hx⟩

theorem Orderly.ne_of_fresh (h : Orderly k) {c call : ℕ} {r : Request}
    (hc : k.requested ≤ c) (hr : k.calls call = some r) : c ≠ call := by
  rintro rfl
  rw [(h.fresh c hc).1] at hr
  cases hr

theorem Orderly.congr (h : Orderly k)
    (hctx : k'.ctx.toCommands = k.ctx.toCommands) (hcalls : k'.calls = k.calls)
    (hrequested : k'.requested = k.requested) : Orderly k' := by
  obtain ⟨⟨c, _⟩, calls, requested⟩ := k
  obtain ⟨⟨c', _⟩, calls', requested'⟩ := k'
  dsimp only at hctx hcalls hrequested
  subst hctx hcalls hrequested
  exact ⟨h.fresh, h.finished, h.once, h.sentBefore, h.sentBack, h.states,
    h.sending, h.tested, h.held, h.waiting⟩

theorem calls_update {calls : ℕ → Option Request} {call c : ℕ}
    {r r' : Request} (h : Function.update calls call (some r) c = some r') :
    c = call ∧ r' = r ∨ c ≠ call ∧ calls c = some r' := by
  by_cases hc : c = call
  · subst hc
    rw [Function.update_self] at h
    exact Or.inl ⟨rfl, (Option.some.inj h).symm⟩
  · rw [Function.update_of_ne hc] at h
    exact Or.inr ⟨hc, h⟩

theorem aboutToSend_goTo {call cmd : ℕ} {r : Request} {place : Place}
    (hr : k.calls call = some r) (hplace : r.place ≠ .sending)
    (hnew : place ≠ .sending) :
    AboutToSend (k.goTo call r place) cmd ↔ AboutToSend k cmd := by
  unfold AboutToSend goTo
  by_cases hcmd : cmd = call
  · subst hcmd
    simp [hr, hplace, hnew]
  · simp [Function.update_of_ne hcmd]

theorem test_ok {cmdbyte : BitVec 8} {noretry async resultOut : Bool}
    (h : k.test cmdbyte noretry async resultOut = .ok k') :
    ∃ x r isqueueempty, x.async = async ∧ r.async = async ∧
      x.state = (if isqueueempty then .waitingresponse else .queued) ∧
      r.place = .tested isqueueempty ∧
      k'.ctx.toCommands = k.ctx.write k.requested x ∧
      k'.calls = Function.update k.calls k.requested (some r) ∧
      k'.requested = k.requested + 1 := by
  obtain ⟨_, _, hk'⟩ := bind_eq_ok h
  cases hk'
  exact ⟨_, _, decide (k.ctx.cmdQueue = []), rfl, rfl, rfl, rfl, rfl, rfl, rfl⟩

theorem test_orderly (h : Orderly k) {cmdbyte : BitVec 8}
    {noretry async resultOut : Bool}
    (hstep : k.test cmdbyte noretry async resultOut = .ok k') :
    Orderly k' := by
  obtain ⟨x, r, e, hx, hr, hstate, hplace, hctx, hcalls, hrequested⟩ :=
    test_ok hstep
  obtain ⟨hnone, hnew⟩ := h.fresh k.requested le_rfl
  have hother : ∀ c, k.calls c ≠ none → c ≠ k.requested := by
    rintro c hsome rfl
    exact hsome hnone
  have hcall : ∀ c r', k'.calls c = some r' →
      c = k.requested ∧ r' = r ∨ c ≠ k.requested ∧ k.calls c = some r' := by
    intro c r' hr'
    rw [hcalls] at hr'
    exact calls_update hr'
  have hheap : ∀ c ≠ k.requested, k'.ctx.heap c = k.ctx.heap c := by
    intro c hc
    rw [hctx]
    exact Function.update_of_ne hc _ _
  have hself : k'.ctx.heap k.requested = some x := by
    rw [hctx]
    exact Function.update_self _ _ _
  have hsending : ∀ cmd, AboutToSend k' cmd ↔ AboutToSend k cmd := by
    intro cmd
    constructor
    · rintro ⟨r', hr', hsend⟩
      rcases hcall cmd r' hr' with ⟨_, rfl⟩ | ⟨_, hold⟩
      · rw [hplace] at hsend
        cases hsend
      · exact ⟨r', hold, hsend⟩
    · rintro ⟨r', hr', hsend⟩
      have hne := hother cmd (by rw [hr']; nofun)
      refine ⟨r', ?_, hsend⟩
      rw [hcalls, Function.update_of_ne hne, hr']
  have hqueue : k'.ctx.cmdQueue = k.ctx.cmdQueue := by rw [hctx]; rfl
  have hback : k'.ctx.back = k.ctx.back := by rw [hctx]; rfl
  have hinserted : k'.ctx.insertedOf = k.ctx.insertedOf := by rw [hctx]; rfl
  have hsent : k'.ctx.sentOf = k.ctx.sentOf := by rw [hctx]; rfl
  have hfinished : k'.ctx.finishedOf = k.ctx.finishedOf := by rw [hctx]; rfl
  constructor
  case fresh =>
    intro c hc
    rw [hrequested] at hc
    obtain ⟨hcall, hlog⟩ := h.fresh c (by omega)
    rw [hcalls, Function.update_of_ne (by omega), hinserted]
    exact ⟨hcall, hlog⟩
  case finished =>
    rw [hinserted, hfinished, hqueue]
    exact h.finished
  case once =>
    rw [hinserted]
    exact h.once
  case sentBefore =>
    simp only [hback, hsending, hsent, hfinished]
    exact h.sentBefore
  case sentBack =>
    simp only [hback, hsending, hsent, hfinished]
    exact h.sentBack
  case states =>
    intro cmd hmem
    rw [hqueue] at hmem
    have hne : cmd ≠ k.requested := by
      rintro rfl
      exact hnew (h.mem_inserted hmem)
    rw [hheap cmd hne, hback]
    exact h.states cmd hmem
  case sending =>
    simp only [hback, hsending]
    exact h.sending
  case tested =>
    intro c r' e' hr' htested
    rw [hinserted]
    rcases hcall c r' hr' with ⟨rfl, rfl⟩ | ⟨hne, hold⟩
    · rw [hplace] at htested
      cases htested
      exact ⟨hnew, x, hself, hstate⟩
    · rw [hheap c hne]
      exact h.tested c r' e' hold htested
  case held =>
    intro c r' hr' hreturned
    rcases hcall c r' hr' with ⟨rfl, rfl⟩ | ⟨hne, hold⟩
    · exact ⟨x, hself, hx.trans hr.symm⟩
    · rw [hheap c hne]
      exact h.held c r' hold hreturned
  case waiting =>
    intro c r' hr' hwaiting
    rcases hcall c r' hr' with ⟨_, rfl⟩ | ⟨_, hold⟩
    · rw [hplace] at hwaiting
      cases hwaiting
    · exact h.waiting c r' hold hwaiting

theorem afterwards_ne_sending (r : Request) : r.afterwards ≠ .sending := by
  unfold Request.afterwards
  split <;> nofun

theorem afterwards_ne_tested (r : Request) (e : Bool) :
    r.afterwards ≠ .tested e := by
  unfold Request.afterwards
  split <;> nofun

theorem afterwards_waiting {r : Request} (h : r.afterwards = .waiting) :
    r.async = false := by
  unfold Request.afterwards at h
  split at h
  next => cases h
  next hasync => simpa using hasync

theorem insert_ok {call : ℕ} {r : Request} {isqueueempty : Bool}
    (h : k.insert call r isqueueempty = .ok k') :
    ∃ r', r'.async = r.async ∧
      r'.place = (if isqueueempty then .sending else r.afterwards) ∧
      k'.ctx.toCommands = Commands.record
        { k.ctx.toCommands with cmdQueue := call :: k.ctx.cmdQueue }
        (.inserted call) ∧
      k'.calls = Function.update k.calls call (some r') ∧
      k'.requested = k.requested := by
  obtain ⟨c, hc, hk'⟩ := bind_eq_ok h
  rw [Commands.insertFront_ok hc] at hk'
  cases hk'
  let place := if isqueueempty then Place.sending else r.afterwards
  exact ⟨{ r with place }, rfl, rfl, rfl, rfl, rfl⟩

/-- The commands behind an insertion. -/
structure Inserted (k k' : Keyboard) (call : ℕ) : Prop where
  heap : k'.ctx.heap = k.ctx.heap
  queue : k'.ctx.cmdQueue = call :: k.ctx.cmdQueue
  inserted : k'.ctx.insertedOf = k.ctx.insertedOf ++ [call]
  sent : k'.ctx.sentOf = k.ctx.sentOf
  finished : k'.ctx.finishedOf = k.ctx.finishedOf

theorem inserted_of_record {call : ℕ}
    (h : k'.ctx.toCommands = Commands.record
      { k.ctx.toCommands with cmdQueue := call :: k.ctx.cmdQueue }
      (.inserted call)) : Inserted k k' call := by
  constructor
  · rw [h]
    rfl
  · rw [h]
    rfl
  · rw [h, Commands.insertedOf_record]
    rfl
  · rw [h, Commands.sentOf_record]
    exact List.append_nil _
  · rw [h, Commands.finishedOf_record]
    exact List.append_nil _

theorem insert_sending {call : ℕ} {r r' : Request} {isqueueempty : Bool}
    (hr : k.calls call = some r) (htested : r.place = .tested isqueueempty)
    (hplace : r'.place = if isqueueempty then .sending else r.afterwards)
    (hcalls : k'.calls = Function.update k.calls call (some r')) (cmd : ℕ) :
    AboutToSend k' cmd ↔ cmd = call ∧ isqueueempty = true ∨
      AboutToSend k cmd := by
  constructor
  · rintro ⟨r₂, hr₂, hsend⟩
    rw [hcalls] at hr₂
    rcases calls_update hr₂ with ⟨rfl, rfl⟩ | ⟨_, hold⟩
    · refine Or.inl ⟨rfl, ?_⟩
      by_contra hfalse
      rw [hplace, if_neg hfalse] at hsend
      exact afterwards_ne_sending r hsend
    · exact Or.inr ⟨r₂, hold, hsend⟩
  · rintro (⟨rfl, he⟩ | ⟨r₂, hr₂, hsend⟩)
    · refine ⟨r', ?_, ?_⟩
      · rw [hcalls, Function.update_self]
      · rw [hplace, if_pos he]
    · have hne : cmd ≠ call := by
        rintro rfl
        rw [hr] at hr₂
        cases hr₂
        rw [htested] at hsend
        cases hsend
      refine ⟨r₂, ?_, hsend⟩
      rw [hcalls, Function.update_of_ne hne, hr₂]

theorem insert_back {call : ℕ} {isqueueempty : Bool}
    (hqueue : k'.ctx.cmdQueue = call :: k.ctx.cmdQueue)
    (hgood : isqueueempty = true ↔ k.ctx.cmdQueue = []) :
    k'.ctx.back = if isqueueempty then some call else k.ctx.back := by
  rw [Commands.back, hqueue]
  split
  next he =>
    rw [hgood.1 he]
    rfl
  next he =>
    cases hk : k.ctx.cmdQueue with
    | nil => exact absurd (hgood.2 hk) he
    | cons front rest => rw [List.getLast?_cons_cons, Commands.back, hk]

/-- Behind the others a command waits for the handler.  Alone in the queue it
is sent by its call. -/
theorem insert_orderly (h : Orderly k) {call : ℕ} {r : Request}
    {isqueueempty : Bool} (hr : k.calls call = some r)
    (htested : r.place = .tested isqueueempty)
    (hgood : isqueueempty = true ↔ k.ctx.cmdQueue = [])
    (hstep : k.insert call r isqueueempty = .ok k') : Orderly k' := by
  obtain ⟨r', hasync, hplace, hctx, hcalls, hrequested⟩ := insert_ok hstep
  obtain ⟨hheap, hqueue, hinserted, hsent, hfinished⟩ := inserted_of_record hctx
  obtain ⟨hnew, x, hx, hstate⟩ := h.tested call r _ hr htested
  have hcall : ∀ c r₂, k'.calls c = some r₂ → c = call ∧ r₂ = r' ∨
      c ≠ call ∧ k.calls c = some r₂ := by
    intro c r₂ hr₂
    rw [hcalls] at hr₂
    exact calls_update hr₂
  have hsending := insert_sending hr htested hplace hcalls
  have hback := insert_back hqueue hgood
  have hbusy : ∀ cmd ∈ k.ctx.cmdQueue, ¬ isqueueempty = true := by
    intro cmd hmem he
    rw [hgood.1 he] at hmem
    cases hmem
  constructor
  case fresh =>
    intro c hc
    rw [hrequested] at hc
    obtain ⟨hnone, hlog⟩ := h.fresh c hc
    have hne := h.ne_of_fresh hc hr
    rw [hcalls, Function.update_of_ne hne, hinserted]
    exact ⟨hnone, by simp [hlog, hne]⟩
  case finished =>
    rw [hinserted, hfinished, hqueue, h.finished, List.reverse_cons,
      List.append_assoc]
  case once =>
    rw [hinserted]
    exact h.once.append (List.nodup_singleton _) (by simpa using hnew)
  case sentBefore =>
    intro hall
    rw [hsent, hfinished]
    apply h.sentBefore
    intro cmd hcmd
    have he := hbusy cmd (back_mem hcmd)
    rw [hback, if_neg he] at hall
    rcases (hsending cmd).1 (hall cmd hcmd) with ⟨_, htrue⟩ | hold
    · exact absurd htrue he
    · exact hold
  case sentBack =>
    intro cmd hcmd hnot
    rw [hsending] at hnot
    rw [hsent, hfinished]
    rw [hback] at hcmd
    split at hcmd
    next he =>
      cases hcmd
      exact absurd (Or.inl ⟨rfl, he⟩) hnot
    next he => exact h.sentBack cmd hcmd fun hold => hnot (Or.inr hold)
  case states =>
    intro cmd hmem
    rw [hheap]
    rw [hqueue, List.mem_cons] at hmem
    rcases hmem with rfl | hmem
    · refine ⟨x, hx, ?_⟩
      rw [hstate, hback]
      split
      next => rw [if_pos rfl]
      next =>
        rw [if_neg]
        intro hcmd
        exact hnew (h.mem_inserted (back_mem hcmd))
    · obtain ⟨y, hy, hystate⟩ := h.states cmd hmem
      rw [hback, if_neg (hbusy cmd hmem)]
      exact ⟨y, hy, hystate⟩
  case sending =>
    intro cmd hcmd
    rw [hback]
    rcases (hsending cmd).1 hcmd with ⟨rfl, he⟩ | hold
    · rw [if_pos he]
    · have hbackold := h.sending cmd hold
      rw [if_neg (hbusy cmd (back_mem hbackold))]
      exact hbackold
  case tested =>
    intro c r₂ e hr₂ hc
    rw [hinserted, hheap]
    rcases hcall c r₂ hr₂ with ⟨rfl, rfl⟩ | ⟨hne, hold⟩
    · rw [hplace] at hc
      split at hc
      next => cases hc
      next => exact absurd hc (afterwards_ne_tested r e)
    · obtain ⟨hlog, hheld⟩ := h.tested c r₂ e hold hc
      exact ⟨by simp [hlog, hne], hheld⟩
  case held =>
    intro c r₂ hr₂ hreturned
    rw [hheap]
    rcases hcall c r₂ hr₂ with ⟨rfl, rfl⟩ | ⟨_, hold⟩
    · rw [hasync]
      refine h.held c r hr ?_
      rw [htested]
      exact Place.noConfusion
    · exact h.held c r₂ hold hreturned
  case waiting =>
    intro c r₂ hr₂ hwaiting
    rcases hcall c r₂ hr₂ with ⟨rfl, rfl⟩ | ⟨_, hold⟩
    · rw [hplace] at hwaiting
      split at hwaiting
      next => cases hwaiting
      next =>
        rw [hasync]
        exact afterwards_waiting hwaiting
    · exact h.waiting c r₂ hold hwaiting

theorem send_orderly (h : Orderly k) {call : ℕ} {r : Request}
    (hr : k.calls call = some r) (hplace : r.place = .sending) :
    Orderly (k.send call r true) := by
  have habout : AboutToSend k call := ⟨r, hr, hplace⟩
  have hback := h.sending call habout
  have hcall : ∀ c r', (k.send call r true).calls c = some r' →
      c = call ∧ r' = { r with place := r.afterwards } ∨
        c ≠ call ∧ k.calls c = some r' := fun _ _ => calls_update
  have hnone : ∀ cmd, ¬ AboutToSend (k.send call r true) cmd := by
    rintro cmd ⟨r', hr', hsend⟩
    rcases hcall cmd r' hr' with ⟨_, rfl⟩ | ⟨hne, hold⟩
    · exact afterwards_ne_sending r hsend
    · have hother := h.sending cmd ⟨r', hold, hsend⟩
      rw [hback] at hother
      exact hne (Option.some.inj hother).symm
  have hfinished : (k.send call r true).ctx.finishedOf = k.ctx.finishedOf :=
    (Commands.finishedOf_record _ _).trans (List.append_nil _)
  have hinserted : (k.send call r true).ctx.insertedOf = k.ctx.insertedOf :=
    (Commands.insertedOf_record _ _).trans (List.append_nil _)
  have hsent : (k.send call r true).ctx.sentOf = k.ctx.sentOf ++ [call] :=
    Commands.sentOf_record _ _
  constructor
  case fresh =>
    intro c hc
    obtain ⟨hfree, hlog⟩ := h.fresh c hc
    have hne := h.ne_of_fresh hc hr
    rw [hinserted]
    exact ⟨(Function.update_of_ne hne _ _).trans hfree, hlog⟩
  case finished =>
    rw [hinserted, hfinished]
    exact h.finished
  case once =>
    rw [hinserted]
    exact h.once
  case sentBefore =>
    intro hall
    exact absurd (hall call hback) (hnone call)
  case sentBack =>
    intro cmd hcmd _
    obtain rfl : call = cmd := Option.some.inj (hback.symm.trans hcmd)
    rw [hsent, hfinished, h.sentBefore]
    intro c hc
    obtain rfl : call = c := Option.some.inj (hback.symm.trans hc)
    exact habout
  case states => exact h.states
  case sending =>
    intro cmd hcmd
    exact absurd hcmd (hnone cmd)
  case tested =>
    intro c r' e hr' hc
    rw [hinserted]
    rcases hcall c r' hr' with ⟨_, rfl⟩ | ⟨_, hold⟩
    · exact absurd hc (afterwards_ne_tested r e)
    · exact h.tested c r' e hold hc
  case held =>
    intro c r' hr' hreturned
    rcases hcall c r' hr' with ⟨rfl, rfl⟩ | ⟨_, hold⟩
    · refine h.held c r hr ?_
      rw [hplace]
      nofun
    · exact h.held c r' hold hreturned
  case waiting =>
    intro c r' hr' hwaiting
    rcases hcall c r' hr' with ⟨_, rfl⟩ | ⟨_, hold⟩
    · exact afterwards_waiting hwaiting
    · exact h.waiting c r' hold hwaiting

theorem poll_orderly (h : Orderly k) {call : ℕ} {r : Request}
    (hr : k.calls call = some r) (hplace : r.place = .waiting)
    (hstep : k.poll call r = .ok k') : Orderly k' := by
  obtain ⟨x, hx, hk'⟩ := bind_eq_ok hstep
  split at hk'
  next =>
    cases hk'
    exact h
  next hdone =>
    cases hk'
    have hx' : k.ctx.heap call = some x := Commands.cmdAt_ok hx
    have hgone : call ∉ k.ctx.cmdQueue := by
      intro hmem
      obtain ⟨y, hy, hstate⟩ := h.states call hmem
      obtain rfl : x = y := Option.some.inj (hx'.symm.trans hy)
      apply hdone
      rw [hstate]
      split <;> exact ⟨nofun, nofun⟩
    have hcall : ∀ c r', Function.update k.calls call
        (some { r with place := .returned }) c = some r' →
        c = call ∧ r' = { r with place := .returned } ∨
          c ≠ call ∧ k.calls c = some r' := fun _ _ => calls_update
    have hheap : ∀ c ≠ call, Function.update k.ctx.heap call none c =
        k.ctx.heap c := fun _ hne => Function.update_of_ne hne _ _
    have hsending : ∀ cmd, AboutToSend
        ((k.withCommands (k.ctx.free call)).goTo call r .returned) cmd ↔
        AboutToSend k cmd := by
      intro cmd
      refine aboutToSend_goTo (k := k.withCommands _) hr ?_ nofun
      rw [hplace]
      nofun
    constructor
    case fresh =>
      intro c hc
      obtain ⟨hfree, hlog⟩ := h.fresh c hc
      have hne := h.ne_of_fresh hc hr
      exact ⟨(Function.update_of_ne hne _ _).trans hfree, hlog⟩
    case finished => exact h.finished
    case once => exact h.once
    case sentBefore =>
      simp only [hsending]
      exact h.sentBefore
    case sentBack =>
      simp only [hsending]
      exact h.sentBack
    case states =>
      intro cmd hmem
      have hne : cmd ≠ call := by
        rintro rfl
        exact hgone hmem
      obtain ⟨y, hy, hstate⟩ := h.states cmd hmem
      exact ⟨y, (hheap cmd hne).trans hy, hstate⟩
    case sending =>
      simp only [hsending]
      exact h.sending
    case tested =>
      intro c r' e hr' hc
      rcases hcall c r' hr' with ⟨_, rfl⟩ | ⟨hne, hold⟩
      · cases hc
      · obtain ⟨hlog, y, hy, hstate⟩ := h.tested c r' e hold hc
        exact ⟨hlog, y, (hheap c hne).trans hy, hstate⟩
    case held =>
      intro c r' hr' hreturned
      rcases hcall c r' hr' with ⟨_, rfl⟩ | ⟨hne, hold⟩
      · exact absurd rfl hreturned
      · obtain ⟨y, hy, hasync⟩ := h.held c r' hold hreturned
        exact ⟨y, (hheap c hne).trans hy, hasync⟩
    case waiting =>
      intro c r' hr' hwaiting
      rcases hcall c r' hr' with ⟨_, rfl⟩ | ⟨_, hold⟩
      · cases hwaiting
      · exact h.waiting c r' hold hwaiting

theorem resent_orderly (h : Orderly k) {cmd : ℕ} {x y : CmdContext}
    (hy : k.ctx.heap cmd = some y) (hstate : x.state = y.state)
    (hasync : x.async = y.async) :
    Orderly (k.withCommands ((k.ctx.write cmd x).record (.resent cmd))) := by
  have hheap : ∀ a z, k.ctx.heap a = some z →
      ∃ z', Function.update k.ctx.heap cmd (some x) a = some z' ∧
        z'.state = z.state ∧ z'.async = z.async := by
    intro a z hz
    by_cases ha : a = cmd
    · subst ha
      obtain rfl : y = z := Option.some.inj (hy.symm.trans hz)
      exact ⟨x, Function.update_self _ _ _, hstate, hasync⟩
    · exact ⟨z, (Function.update_of_ne ha _ _).trans hz, rfl, rfl⟩
  have hinserted : ((k.ctx.write cmd x).record (.resent cmd)).insertedOf =
      k.ctx.insertedOf :=
    (Commands.insertedOf_record _ _).trans (List.append_nil _)
  have hsent : ((k.ctx.write cmd x).record (.resent cmd)).sentOf =
      k.ctx.sentOf := (Commands.sentOf_record _ _).trans (List.append_nil _)
  have hfinished : ((k.ctx.write cmd x).record (.resent cmd)).finishedOf =
      k.ctx.finishedOf :=
    (Commands.finishedOf_record _ _).trans (List.append_nil _)
  constructor
  case fresh =>
    intro c hc
    obtain ⟨hfree, hlog⟩ := h.fresh c hc
    exact ⟨hfree, fun hmem => hlog (hinserted ▸ hmem)⟩
  case finished => exact hinserted.trans (hfinished ▸ h.finished)
  case once => exact hinserted ▸ h.once
  case sentBefore =>
    intro hall
    exact hsent.trans ((h.sentBefore hall).trans hfinished.symm)
  case sentBack =>
    intro c hc hnot
    exact hsent.trans ((h.sentBack c hc hnot).trans (hfinished ▸ rfl))
  case states =>
    intro c hc
    obtain ⟨z, hz, hzstate⟩ := h.states c hc
    obtain ⟨z', hz', hsame, _⟩ := hheap c z hz
    exact ⟨z', hz', hsame.trans hzstate⟩
  case sending => exact h.sending
  case tested =>
    intro c r e hr hc
    obtain ⟨hlog, z, hz, hzstate⟩ := h.tested c r e hr hc
    obtain ⟨z', hz', hsame, _⟩ := hheap c z hz
    exact ⟨fun hmem => hlog (hinserted ▸ hmem), z', hz', hsame.trans hzstate⟩
  case held =>
    intro c r hr hreturned
    obtain ⟨z, hz, hzasync⟩ := h.held c r hr hreturned
    obtain ⟨z', hz', _, hsame⟩ := hheap c z hz
    exact ⟨z', hz', hsame.trans hzasync⟩
  case waiting => exact h.waiting

theorem finished_orderly (h : Orderly k) {queue : List ℕ} {cmd : ℕ}
    {y : CmdContext} {c : Commands} (hqueue : k.ctx.cmdQueue = queue ++ [cmd])
    (hy : k.ctx.heap cmd = some y) (hsent : ¬ AboutToSend k cmd)
    (hc : Commands.FinishedOne k.ctx.toCommands c queue cmd y.async) :
    Orderly (k.withCommands c) := by
  have hback : k.ctx.back = some cmd := by
    rw [Commands.back, hqueue, List.getLast?_concat]
  have hnone : ∀ a, ¬ AboutToSend k a := by
    intro a ha
    have heq := h.sending a ha
    rw [hback] at heq
    cases heq
    exact hsent ha
  have hinserted : k.ctx.insertedOf =
      k.ctx.finishedOf ++ cmd :: queue.reverse := by
    rw [h.finished, hqueue, List.reverse_append]
    rfl
  have honce := h.once
  rw [hinserted] at honce
  have hcmd : cmd ∈ k.ctx.insertedOf := by
    rw [hinserted]
    simp
  have hleft : ∀ a ∈ queue, a ≠ cmd := by
    rintro a ha rfl
    have hnodup := (List.nodup_cons.1 (List.nodup_append.1 honce).2.1).1
    exact hnodup (List.mem_reverse.2 ha)
  have hsentOf : c.sentOf = c.finishedOf ++ c.back.toList := by
    rw [hc.sent, hc.finished, h.sentBack cmd hback hsent]
  constructor
  case fresh =>
    intro a ha
    obtain ⟨hfree, hlog⟩ := h.fresh a ha
    exact ⟨hfree, fun hmem => hlog (hc.inserted ▸ hmem)⟩
  case finished =>
    show c.insertedOf = c.finishedOf ++ c.cmdQueue.reverse
    rw [hc.inserted, hc.finished, hc.queue, hinserted, List.append_assoc]
    rfl
  case once => exact hc.inserted ▸ h.once
  case sentBefore =>
    intro hall
    refine hsentOf.trans ?_
    cases hnext : c.back with
    | none => exact List.append_nil _
    | some next => exact absurd (hall next hnext) (hnone next)
  case sentBack =>
    intro next hnext _
    refine hsentOf.trans ?_
    rw [show c.back = some next from hnext]
    rfl
  case states =>
    intro a ha
    have hmem : a ∈ queue := hc.queue ▸ ha
    have hne := hleft a hmem
    obtain ⟨z, hz, hzstate⟩ := h.states a (by rw [hqueue]; simp [hmem])
    obtain ⟨z', hz', _, hstate⟩ := hc.others a hne z hz
    have hnotback : ¬ k.ctx.back = some a := by
      rw [hback]
      intro heq
      exact hne (Option.some.inj heq).symm
    rw [hzstate, if_neg hnotback] at hstate
    exact ⟨z', hz', hstate⟩
  case sending => exact fun a ha => absurd ha (hnone a)
  case tested =>
    intro a r e hr ha
    obtain ⟨hlog, z, hz, hzstate⟩ := h.tested a r e hr ha
    have hne : a ≠ cmd := by
      rintro rfl
      exact hlog hcmd
    obtain ⟨z', hz', _, hstate⟩ := hc.others a hne z hz
    have hnotback : ¬ c.back = some a := by
      intro heq
      have hmem : a ∈ queue := hc.queue ▸ back_mem heq
      apply hlog
      rw [hinserted]
      simp [hmem]
    rw [if_neg hnotback] at hstate
    exact ⟨fun hmem => hlog (hc.inserted ▸ hmem), z', hz',
      hstate.trans hzstate⟩
  case held =>
    intro a r hr hreturned
    obtain ⟨z, hz, hzasync⟩ := h.held a r hr hreturned
    by_cases hne : a = cmd
    · -- Only a call which waits for its command has not returned.
      subst hne
      obtain rfl : y = z := Option.some.inj (hy.symm.trans hz)
      have hwaiting : r.place = .waiting := by
        cases hplace : r.place with
        | tested e => exact absurd hcmd (h.tested a r e hr hplace).1
        | sending => exact absurd ⟨r, hr, hplace⟩ hsent
        | waiting => rfl
        | returned => exact absurd hplace hreturned
      have hasync := h.waiting a r hr hwaiting
      obtain ⟨z', hz', hzasync'⟩ := hc.kept (hzasync.trans hasync)
      exact ⟨z', hz', hzasync'.trans hasync.symm⟩
    · obtain ⟨z', hz', hsame, _⟩ := hc.others a hne z hz
      exact ⟨z', hz', hsame.trans hzasync⟩
  case waiting => exact h.waiting

theorem answered_orderly (h : Orderly k) {byte : BitVec 8} {putOk : Bool}
    (hgood : InOrder k (.byteReceived byte putOk)) :
    ∃ c, k.ctx.toCommands.answered putOk (k.ctx.answer byte) = .ok c ∧
      Orderly (k.withCommands c) := by
  obtain ⟨hfinishes, hputs, -⟩ := hgood
  rcases k.ctx.answer_cases byte with hanswer | ⟨cmd, y, hback, hy, hcases⟩
  · rw [hanswer]
    exact ⟨_, rfl, h⟩
  rcases hcases with ⟨x, hanswer, hstate, hasync⟩ | ⟨x, f, hanswer, hasync⟩
  · rw [hanswer] at hputs ⊢
    obtain rfl : putOk = true := hputs trivial
    exact ⟨_, rfl, resent_orderly h hy hstate hasync⟩
  · rw [hanswer] at hfinishes hputs ⊢
    obtain ⟨queue, hqueue⟩ := List.getLast?_eq_some_iff.1 hback
    have honce : k.ctx.cmdQueue.Nodup := by
      have hnodup := h.once
      rw [h.finished] at hnodup
      exact List.nodup_reverse.1 (List.nodup_append.1 hnodup).2.1
    have hlive : ∀ a ∈ queue, ∃ z, k.ctx.heap a = some z := by
      intro a ha
      obtain ⟨z, hz, _⟩ := h.states a (by rw [hqueue]; simp [ha])
      exact ⟨z, hz⟩
    have hput : queue ≠ [] → putOk = true := by
      intro hne
      apply hputs
      have hpos := List.length_pos_iff.2 hne
      show 2 ≤ k.ctx.cmdQueue.length
      rw [hqueue, List.length_append, List.length_singleton]
      omega
    obtain ⟨c, hc, hone⟩ := Commands.answered_finishedOne x f hqueue honce
      hlive hput
    refine ⟨c, hc, ?_⟩
    rw [hasync] at hone
    exact finished_orderly h hqueue hy (hfinishes trivial cmd hback) hone

theorem backLives (h : Orderly k) : k.ctx.BackLives := by
  intro cmd hback
  obtain ⟨x, hx, _⟩ := h.states cmd (back_mem hback)
  exact ⟨x, hx⟩

theorem step_orderly (h : Orderly k) {a : Ps2Step} (hgood : InOrder k a)
    (hstep : k.step a = .ok k') : Orderly k' := by
  cases a with
  | byteReceived byte putOk =>
      obtain ⟨s, hs, rfl⟩ := byteReceived_ok hstep
      obtain ⟨c, hc, horderly⟩ := answered_orderly h hgood
      have hsame := (Kbdcontext.opBytereceived_answers (backLives h) byte
        putOk).1 s hs
      rw [hc] at hsame
      cases hsame
      exact horderly.congr rfl rfl rfl
  | test cmdbyte noretry async resultOut =>
      exact test_orderly h (orHalt_ok hstep)
  | insert call =>
      simp only [step] at hstep
      split at hstep
      next r hr =>
        split at hstep
        next e hplace =>
          exact insert_orderly h hr hplace (hgood r e hr hplace)
            (orHalt_ok hstep)
        next => cases hstep
      next => cases hstep
  | send call putOk =>
      obtain rfl : putOk = true := hgood
      simp only [step] at hstep
      split at hstep
      next r hr =>
        split at hstep
        next hplace =>
          cases hstep
          exact send_orderly h hr hplace
        next => cases hstep
      next => cases hstep
  | poll call =>
      simp only [step] at hstep
      split at hstep
      next r hr =>
        split at hstep
        next hplace => exact poll_orderly h hr hplace (orHalt_ok hstep)
        next => cases hstep
      next => cases hstep

theorem orHalt_fault {α : Type} {x : Except Fault α} {e : Fault}
    (h : orHalt x = .error (.fault e)) : x = .error e := by
  cases x with
  | ok a => cases h
  | error e' =>
      cases h
      rfl

theorem step_live (h : Orderly k) {a : Ps2Step} (hgood : InOrder k a) :
    k.step a ≠ .error (.fault .wildPointer) := by
  intro hstep
  cases a with
  | byteReceived byte putOk =>
      obtain ⟨c, hc, _⟩ := answered_orderly h hgood
      rcases bind_eq_error (orHalt_fault hstep) with hstop | ⟨_, _, hok⟩
      · have hsame := (Kbdcontext.opBytereceived_answers (backLives h) byte
          putOk).2 hstop
        rw [hc] at hsame
        cases hsame
      · cases hok
  | test cmdbyte noretry async resultOut =>
      rcases bind_eq_error (orHalt_fault hstep) with hstop | ⟨_, _, hok⟩
      · cases cAssert_error hstop
      · cases hok
  | insert call =>
      simp only [step] at hstep
      split at hstep
      next r hr =>
        split at hstep
        next e hplace =>
          rcases bind_eq_error (orHalt_fault hstep) with hstop | ⟨_, _, hok⟩
          · exact Commands.insertFront_live h.queueSound.live call _ hstop
          · cases hok
        next => cases hstep
      next => cases hstep
  | send call putOk =>
      simp only [step] at hstep
      split at hstep
      next r hr =>
        split at hstep
        next => cases hstep
        next => cases hstep
      next => cases hstep
  | poll call =>
      simp only [step] at hstep
      split at hstep
      next r hr =>
        split at hstep
        next hplace =>
          have hheld : r.place ≠ .returned := by
            rw [hplace]
            exact Place.noConfusion
          obtain ⟨x, hx, _⟩ := h.held call r hr hheld
          rcases bind_eq_error (orHalt_fault hstep) with hstop | ⟨_, _, hok⟩
          · exact Commands.cmdAt_error hx _ hstop
          · split at hok <;> cases hok
        next => cases hstep
      next => cases hstep

theorem inOrder_keepsIndex {a : Ps2Step} (hgood : InOrder k a) :
    KeepsIndex k a := by
  rw [keepsIndex_iff_inArray]
  cases a with
  | byteReceived byte putOk => exact fun _ => hgood.2.2
  | test _ _ _ _ => exact fun h => absurd trivial h
  | insert _ => exact fun h => absurd trivial h
  | send _ _ => exact fun h => absurd trivial h
  | poll _ => exact fun h => absurd trivial h

theorem initial_orderly : Orderly initial where
  fresh _ _ := ⟨rfl, nofun⟩
  finished := rfl
  once := List.nodup_nil
  sentBefore _ := rfl
  sentBack := nofun
  states := nofun
  sending := by
    rintro cmd ⟨r, hr, _⟩
    cases hr
  tested := nofun
  held := nofun
  waiting := nofun

/-- In every run in order, from the keyboard as it is set up, the queue is as
promised behind every step, and no step touches a freed command or anything
behind the stored bytes. -/
theorem queueRun_keepsQueue (steps : List Ps2Step)
    (horder : TransitionRun.Admitted InOrder step initial steps) :
    TransitionRun.Admitted KeepsQueue step initial steps := by
  have hkeeps : ∀ (k : Keyboard) a, Orderly k → InOrder k a →
      KeepsQueue k a := by
    intro k a h hgood
    refine ⟨step_live h hgood, inOrder_keepsIndex hgood, ?_⟩
    intro k' hk'
    exact (step_orderly h hgood hk').queueSound
  have hstep : ∀ (k : Keyboard) a k', Orderly k → InOrder k a →
      k.step a = .ok k' → Orderly k' :=
    fun _ _ _ h hgood hk' => step_orderly h hgood hk'
  exact TransitionRun.Admitted.imp hkeeps hstep initial_orderly horder

/-- Two commands which are queued, sent and acknowledged one behind the
other. -/
theorem two_commands_acknowledged : TransitionRun.Admitted KeepsQueue step
    initial [.test 0xed false true false, .insert 0, .send 0 true,
      .test 0x07 true true false, .insert 1, .byteReceived responseAck true,
      .byteReceived responseAck true] := by
  apply queueRun_keepsQueue
  refine ⟨trivial, ?_⟩
  rintro _ ⟨⟩
  refine ⟨?_, ?_⟩
  · rintro r e hr he
    cases hr
    cases he
    decide
  rintro _ ⟨⟩
  refine ⟨rfl, ?_⟩
  rintro _ ⟨⟩
  refine ⟨trivial, ?_⟩
  rintro _ ⟨⟩
  refine ⟨?_, ?_⟩
  · rintro r e hr he
    cases hr
    cases he
    decide
  rintro _ ⟨⟩
  refine ⟨⟨?_, fun _ => rfl, fun h => absurd rfl h⟩, ?_⟩
  · rintro _ cmd hback ⟨r, hr, hsend⟩
    cases hback
    cases hr
    cases hsend
  rintro _ ⟨⟩
  refine ⟨⟨?_, fun _ => rfl, fun h => absurd rfl h⟩, ?_⟩
  · rintro _ cmd hback ⟨r, hr, hsend⟩
    cases hback
    cases hr
    cases hsend
  exact fun _ _ => trivial

/-- The acknowledgement of the first command comes between the test and the
insertion of the second one, which is then left unsent. -/
theorem queued_command_unsent : ¬ ∀ steps,
    TransitionRun.Admitted KeepsQueue step initial steps := by
  intro hall
  have hrun := hall [.test 0xed false true false, .insert 0, .send 0 true,
    .test 0x07 true true false, .byteReceived responseAck true, .insert 1]
  have hlast := ((((((hrun.2 _ rfl).2 _ rfl).2 _ rfl).2 _ rfl).2 _
    rfl).1).2.2 _ rfl
  rcases hlast.back 1 rfl with hsent | ⟨r, hr, hsend⟩
  · exact absurd hsent.sent (by decide)
  · cases hr
    cases hsend

end Keyboard

end Ps2Kbd
end Yjkos
