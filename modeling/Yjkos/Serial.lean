import Yjkos.Queue
import Yjkos.TransitionRun

/-!
# The serial port

`wait_and_send` and `irq_handler` of `kernel/arch/i586/serial.c`.  One caller
sends a sequence of bytes, the handler interrupts it between two of its steps
and runs to its end, and the line status changes at any time.
-/

namespace Yjkos
namespace Serial

def archI586SerialQueueSize : ℕ := 64
def lsrFlagTxHoldingRegEmpty : BitVec 8 := 1 <<< 5

/-- Where the caller stands in `wait_and_send`.  Whether its byte has been
stored in the queue already is not known to it. -/
inductive Place where
  | outside
  | queueing (ch : BitVec 8) (stored : Bool)
  | waiting (ch : BitVec 8)
  | writing (ch : BitVec 8)
deriving DecidableEq

/-- `struct archi586_serial` with the line status register, the caller, and
the handler, which is `draining` while it sends from the queue.  `given` are
the bytes of the calls and `written` those which went to the data register,
the first one first. -/
structure State where
  txQueue : Queue
  rxQueue : Queue
  useIrq : Bool
  irqsEnabled : Bool
  lsr : BitVec 8
  place : Place
  draining : Bool
  given : List (BitVec 8)
  written : List (BitVec 8)

inductive SerialStep where
  | send (ch : BitVec 8)
  | tryEnqueue
  | pollLsr
  | writeData
  | interrupt (iir data : BitVec 8)
  | drain
  | lineStatus (lsr : BitVec 8)
deriving DecidableEq

namespace State

def shouldUseIrq (s : State) : Bool := s.useIrq && s.irqsEnabled

def isReadyToSend (s : State) : Bool :=
  decide (s.lsr &&& lsrFlagTxHoldingRegEmpty ≠ 0)

def writeData (s : State) (val : BitVec 8) : State :=
  { s with written := s.written ++ [val] }

/-- The start of `wait_and_send`. -/
def waitAndSend (s : State) (ch : BitVec 8) : State :=
  { s with
    given := s.given ++ [ch]
    place := if !s.isReadyToSend && s.shouldUseIrq then .queueing ch false
      else .waiting ch }

/-- One turn of the loop which stores the byte.  The error number is taken for
a `bool`, and ends the loop unless it is 0. -/
def tryEnqueue (s : State) (ch : BitVec 8) : Except Fault State := do
  let (ret, txQueue) ← s.txQueue.enqueue [ch]
  let ok := match ret with
    | .ok () => false
    | .error _ => true
  .ok { s with
    txQueue
    place := if ok then .outside else .queueing ch true }

/-- One turn of `wait_lsr_ready_to_send`. -/
def pollLsr (s : State) (ch : BitVec 8) : State :=
  if s.isReadyToSend then { s with place := .writing ch } else s

/-- `irq_handler`, up to its loop.  `data` is the received byte. -/
def interrupt (s : State) (iir data : BitVec 8) : Except Fault State :=
  if iir &&& (3 <<< 1) = 1 <<< 1 then .ok { s with draining := true }
  else if iir &&& (3 <<< 1) = 2 <<< 1 then do
    let (_, rxQueue) ← s.rxQueue.enqueue [data]
    .ok { s with rxQueue }
  else .ok s

/-- One turn of the loop of `irq_handler`. -/
def drain (s : State) : Except Fault State := do
  let (data, txQueue) ← s.txQueue.dequeue 1
  match data with
  | none => .ok { s with draining := false }
  | some data => .ok ({ s with txQueue }.writeData (data.headD 0))

/-- Where the caller goes on, unless the handler has interrupted it. -/
def running (s : State) : Option Place :=
  if s.draining then none else some s.place

/-- A step stops at a fault, or without one when it cannot be taken where the
caller and the handler stand. -/
def step (s : State) : SerialStep → Except (Option Fault) State
  | .send ch =>
      match s.running with
      | some .outside => .ok (s.waitAndSend ch)
      | _ => .error none
  | .tryEnqueue =>
      match s.running with
      | some (.queueing ch _) => (s.tryEnqueue ch).mapError some
      | _ => .error none
  | .pollLsr =>
      match s.running with
      | some (.waiting ch) => .ok (s.pollLsr ch)
      | _ => .error none
  | .writeData =>
      match s.running with
      | some (.writing ch) => .ok { s.writeData ch with place := .outside }
      | _ => .error none
  | .interrupt iir data =>
      if s.irqsEnabled && !s.draining then
        (s.interrupt iir data).mapError some
      else .error none
  | .drain => if s.draining then s.drain.mapError some else .error none
  | .lineStatus lsr => .ok { s with lsr }

/-- The port behind `archi586_serial_use_irq`. -/
def initial (lsr : BitVec 8) : State where
  txQueue := .init (List.replicate archI586SerialQueueSize 0) 1
    archI586SerialQueueSize
  rxQueue := .init (List.replicate archI586SerialQueueSize 0) 1
    archI586SerialQueueSize
  useIrq := true
  irqsEnabled := true
  lsr := lsr
  place := .outside
  draining := false
  given := []
  written := []

end State

/-- The byte which has still to be stored or written. -/
def Place.unsent : Place → List (BitVec 8)
  | .outside => []
  | .queueing ch stored => if stored then [] else [ch]
  | .waiting ch => [ch]
  | .writing ch => [ch]

/-- The queue has these bytes in it. -/
def Queued (queue : Queue) (bytes : List (BitVec 8)) : Prop :=
  queue.Stores archI586SerialQueueSize 1 (bytes.map fun b => [b])

/-- What has been written, what is in the queue and what has still to get
there are the bytes given. -/
def InTransit (s : State) : Prop :=
  ∃ queued, Queued s.txQueue queued ∧
    s.written ++ queued ++ s.place.unsent = s.given

/-- What comes of a step: no fault, no write while the transmitter is not
ready, and all bytes where they belong. -/
structure Keeps (s : State) (x : Except (Option Fault) State) : Prop where
  safe : ∀ e, x ≠ .error (some e)
  ready : ∀ t, x = .ok t → t.written ≠ s.written → s.isReadyToSend = true
  order : ∀ t, x = .ok t → InTransit t

def KeepsOrder (s : State) (a : SerialStep) : Prop := Keeps s (s.step a)

/-- A byte which has not been stored finds room in the queue, and one which
has finds the queue full.  A byte is written to the register by its call while
the queue has no other byte in it, and every byte is written while the
transmitter is ready. -/
def InTurn (s : State) : SerialStep → Prop
  | .tryEnqueue => ∀ ch stored, s.running = some (.queueing ch stored) →
      (stored = true ↔ s.txQueue.isFull = true)
  | .writeData => ∀ ch, s.running = some (.writing ch) →
      s.isReadyToSend = true ∧
        ∀ queued, Queued s.txQueue queued → ∀ b ∈ queued, b = ch
  | .drain => s.draining = true → s.txQueue.isEmpty = false →
      s.isReadyToSend = true
  | _ => True

/-- The invariant of a run. -/
structure SerialInv (s : State) : Prop where
  transit : InTransit s
  received : ∃ items, s.rxQueue.Stores archI586SerialQueueSize 1 items

variable {queue : Queue} {bytes : List (BitVec 8)} {ch : BitVec 8}

theorem Queued.unique {bytes' : List (BitVec 8)} (h : Queued queue bytes)
    (h' : Queued queue bytes') : bytes = bytes' :=
  List.map_injective_iff.2 List.singleton_injective (Queue.Stores.unique h h')

theorem Queued.room (h : Queued queue bytes) (hfull : queue.isFull = false)
    (ch : BitVec 8) : ∃ queue', queue.enqueue [ch] = .ok (.ok (), queue') ∧
      Queued queue' (bytes ++ [ch]) := by
  have hroom : (bytes.map fun b => [b]).length < archI586SerialQueueSize := by
    refine lt_of_le_of_ne h.ring.length_le ?_
    rw [Ne, ← Queue.isFull_iff h, hfull]
    nofun
  have hlength : [ch].length = 1 := rfl
  obtain ⟨queue', hok, hstores⟩ := Queue.enqueue_room h hlength hroom
  refine ⟨queue', hok, ?_⟩
  unfold Queued
  rw [List.map_append]
  exact hstores

theorem Queued.full (h : Queued queue bytes) (hfull : queue.isFull = true)
    (ch : BitVec 8) : queue.enqueue [ch] = .ok (.error .enomem, queue) :=
  Queue.enqueue_full h rfl ((Queue.isFull_iff h).1 hfull)

theorem cons_eq_append_iff : ch :: bytes = bytes ++ [ch] ↔
    ∀ b ∈ bytes, b = ch := by
  induction bytes with
  | nil => simp
  | cons b rest ih =>
      rw [List.cons_append, List.cons.injEq, List.forall_mem_cons, ← ih]
      constructor
      · rintro ⟨rfl, heq⟩
        exact ⟨rfl, heq⟩
      · rintro ⟨rfl, heq⟩
        exact ⟨rfl, heq⟩

variable {s t : State} {a : SerialStep}

/-- All bytes given are written once the queue has been drained and the last
call has returned. -/
theorem InTransit.drained (h : InTransit s) (hqueue : s.txQueue.isEmpty = true)
    (hplace : s.place = .outside) : s.written = s.given := by
  obtain ⟨queued, hqueued, horder⟩ := h
  have hnil := (Queue.isEmpty_iff hqueued).1 hqueue
  rw [List.map_eq_nil_iff] at hnil
  rw [hnil, hplace] at horder
  simpa [Place.unsent] using horder

theorem keeps_none : Keeps s (.error none) := ⟨nofun, nofun, nofun⟩

theorem keeps_ok_iff : Keeps s (.ok t) ↔
    (t.written ≠ s.written → s.isReadyToSend = true) ∧ InTransit t := by
  constructor
  · intro h
    exact ⟨h.ready t rfl, h.order t rfl⟩
  · rintro ⟨hready, horder⟩
    refine ⟨nofun, ?_, ?_⟩
    · rintro t' heq
      cases heq
      exact hready
    · rintro t' heq
      cases heq
      exact horder

theorem keeps_quiet_iff (hwritten : t.written = s.written) :
    Keeps s (.ok t) ↔ InTransit t := by
  rw [keeps_ok_iff, hwritten]
  exact and_iff_right fun hne => absurd rfl hne

theorem keeps_write_iff {val : BitVec 8}
    (hwritten : t.written = s.written ++ [val]) :
    Keeps s (.ok t) ↔ s.isReadyToSend = true ∧ InTransit t := by
  rw [keeps_ok_iff, hwritten]
  have hne : s.written ++ [val] ≠ s.written := by simp
  rw [forall_prop_of_true hne]

theorem inTransit_iff {queued : List (BitVec 8)}
    (hqueued : Queued t.txQueue queued) : InTransit t ↔
      t.written ++ queued ++ t.place.unsent = t.given := by
  constructor
  · rintro ⟨queued', hqueued', horder⟩
    rw [hqueued.unique hqueued']
    exact horder
  · intro horder
    exact ⟨queued, hqueued, horder⟩

theorem running_place {place : Place} (h : s.running = some place) :
    s.place = place := by
  unfold State.running at h
  split at h
  next => cases h
  next => exact Option.some.inj h

theorem send_keepsOrder (h : InTransit s) (ch : BitVec 8) :
    KeepsOrder s (.send ch) := by
  obtain ⟨queued, hqueued, horder⟩ := h
  simp only [KeepsOrder, State.step]
  split
  next hrunning =>
    rw [running_place hrunning, Place.unsent, List.append_nil] at horder
    have hunsent : (s.waitAndSend ch).place.unsent = [ch] := by
      unfold State.waitAndSend
      dsimp only
      split <;> rfl
    refine (keeps_quiet_iff ?_).2 ⟨queued, hqueued, ?_⟩
    · rfl
    · rw [hunsent]
      exact congrArg (· ++ [ch]) horder
  next => exact keeps_none

theorem tryEnqueue_full {queued : List (BitVec 8)}
    (hqueued : Queued s.txQueue queued) (hfull : s.txQueue.isFull = true) :
    s.tryEnqueue ch = .ok { s with place := .outside } := by
  unfold State.tryEnqueue
  rw [hqueued.full hfull]
  rfl

theorem tryEnqueue_room {queued : List (BitVec 8)}
    (hqueued : Queued s.txQueue queued) (hroom : s.txQueue.isFull = false)
    (ch : BitVec 8) :
    ∃ queue', Queued queue' (queued ++ [ch]) ∧ s.tryEnqueue ch = .ok { s with
      txQueue := queue'
      place := .queueing ch true } := by
  obtain ⟨queue', hstore, hqueued'⟩ := hqueued.room hroom ch
  refine ⟨queue', hqueued', ?_⟩
  unfold State.tryEnqueue
  rw [hstore]
  rfl

/-- A turn of the loop is right when it stores the byte, or when the byte has
been stored and the loop ends. -/
theorem tryEnqueue_keeps_iff {stored : Bool} (h : InTransit s)
    (hplace : s.place = .queueing ch stored) :
    Keeps s ((s.tryEnqueue ch).mapError some) ↔
      (stored = true ↔ s.txQueue.isFull = true) := by
  obtain ⟨queued, hqueued, horder⟩ := h
  rw [hplace, Place.unsent] at horder
  cases hfull : s.txQueue.isFull with
  | true =>
      rw [tryEnqueue_full hqueued hfull, Except.mapError, keeps_quiet_iff,
        inTransit_iff (t := { s with place := .outside }) hqueued]
      · show s.written ++ queued ++ [] = s.given ↔ _
        rw [← horder]
        cases stored <;> simp
      · rfl
  | false =>
      obtain ⟨queue', hqueued', hok⟩ := tryEnqueue_room hqueued hfull ch
      rw [hok, Except.mapError, keeps_quiet_iff, inTransit_iff (t := { s with
        txQueue := queue'
        place := .queueing ch true }) hqueued']
      · show s.written ++ (queued ++ [ch]) ++ [] = s.given ↔ _
        rw [← horder]
        cases stored <;> simp
      · rfl

theorem tryEnqueue_keepsOrder_iff (h : InTransit s) :
    KeepsOrder s .tryEnqueue ↔ InTurn s .tryEnqueue := by
  simp only [KeepsOrder, State.step, InTurn]
  split
  next ch stored hrunning =>
    rw [tryEnqueue_keeps_iff h (running_place hrunning), hrunning]
    constructor
    · rintro hthis ch' stored' heq
      cases heq
      exact hthis
    · intro hall
      exact hall ch stored rfl
  next hnot =>
    refine iff_of_true keeps_none ?_
    intro ch stored hrunning
    exact absurd hrunning (hnot ch stored)

theorem pollLsr_keepsOrder (h : InTransit s) : KeepsOrder s .pollLsr := by
  obtain ⟨queued, hqueued, horder⟩ := h
  simp only [KeepsOrder, State.step]
  split
  next ch hrunning =>
    unfold State.pollLsr
    split
    next =>
      rw [running_place hrunning] at horder
      refine (keeps_quiet_iff ?_).2 ⟨queued, hqueued, horder⟩
      rfl
    next => exact (keeps_quiet_iff rfl).2 ⟨queued, hqueued, horder⟩
  next => exact keeps_none

theorem writeData_keeps_iff {queued : List (BitVec 8)}
    (hqueued : Queued s.txQueue queued)
    (horder : s.written ++ queued ++ [ch] = s.given) :
    Keeps s (.ok { s.writeData ch with place := .outside }) ↔
      s.isReadyToSend = true ∧ ∀ b ∈ queued, b = ch := by
  rw [keeps_write_iff (show _ = s.written ++ [ch] from rfl),
    inTransit_iff (t := { s.writeData ch with place := .outside }) hqueued]
  show _ ∧ s.written ++ [ch] ++ queued ++ [] = s.given ↔ _
  rw [← horder, List.append_nil, List.append_assoc, List.append_assoc,
    List.append_right_inj, ← cons_eq_append_iff]
  rfl

theorem writeData_keepsOrder_iff (h : InTransit s) :
    KeepsOrder s .writeData ↔ InTurn s .writeData := by
  obtain ⟨queued, hqueued, horder⟩ := h
  simp only [KeepsOrder, State.step, InTurn]
  split
  next ch hrunning =>
    rw [running_place hrunning, Place.unsent] at horder
    rw [writeData_keeps_iff hqueued horder, hrunning]
    constructor
    · rintro ⟨hready, hlike⟩ ch' heq
      cases heq
      refine ⟨hready, ?_⟩
      intro queued' hqueued'
      rw [← hqueued.unique hqueued']
      exact hlike
    · intro hall
      obtain ⟨hready, hlike⟩ := hall ch rfl
      exact ⟨hready, hlike queued hqueued⟩
  next hnot =>
    refine iff_of_true keeps_none ?_
    intro ch hrunning
    exact absurd hrunning (hnot ch)

theorem drain_nil (hqueued : Queued s.txQueue []) :
    s.drain = .ok { s with draining := false } := by
  unfold State.drain
  rw [Queue.dequeue_nil hqueued]
  rfl

theorem drain_cons {queued : List (BitVec 8)}
    (hqueued : Queued s.txQueue (ch :: queued)) : ∃ queue',
      Queued queue' queued ∧
      s.drain = .ok ({ s with txQueue := queue' }.writeData ch) := by
  obtain ⟨queue', htake, hqueued'⟩ := Queue.dequeue_cons hqueued
  refine ⟨queue', hqueued', ?_⟩
  unfold State.drain
  rw [htake]
  rfl

theorem drain_keepsOrder_iff (h : InTransit s) :
    KeepsOrder s .drain ↔ InTurn s .drain := by
  obtain ⟨queued, hqueued, horder⟩ := h
  simp only [KeepsOrder, State.step, InTurn]
  split
  next hdraining =>
    rw [forall_prop_of_true hdraining]
    cases queued with
    | nil =>
        have hempty := (Queue.isEmpty_iff hqueued).2 rfl
        rw [drain_nil hqueued, hempty]
        refine iff_of_true ((keeps_quiet_iff ?_).2 ⟨[], hqueued, horder⟩) nofun
        rfl
    | cons b rest =>
        have hempty : s.txQueue.isEmpty = false := by
          rw [Bool.eq_false_iff, Ne, Queue.isEmpty_iff hqueued]
          nofun
        obtain ⟨queue', hqueued', hok⟩ := drain_cons hqueued
        rw [hok, Except.mapError, keeps_write_iff (show _ = s.written ++ [b]
          from rfl), forall_prop_of_true hempty]
        refine and_iff_left ⟨rest, hqueued', ?_⟩
        show s.written ++ [b] ++ rest ++ s.place.unsent = s.given
        rw [← horder, List.append_assoc s.written]
        rfl
  next hdraining =>
    exact iff_of_true keeps_none fun hthis => absurd hthis hdraining

theorem received_enqueue {items : List (List (BitVec 8))}
    (h : s.rxQueue.Stores archI586SerialQueueSize 1 items)
    (data : BitVec 8) : ∃ ret rxQueue items',
      s.rxQueue.enqueue [data] = .ok (ret, rxQueue) ∧
      rxQueue.Stores archI586SerialQueueSize 1 items' := by
  have hlength : [data].length = 1 := rfl
  rcases Nat.lt_or_ge items.length archI586SerialQueueSize with hroom | hfull
  · obtain ⟨rxQueue, hok, hstores⟩ := Queue.enqueue_room h hlength hroom
    exact ⟨_, _, _, hok, hstores⟩
  · have hlast := le_antisymm h.ring.length_le hfull
    exact ⟨_, _, _, Queue.enqueue_full h hlength hlast, h⟩

theorem interrupt_ok (h : SerialInv s) (iir data : BitVec 8) : ∃ t,
    s.interrupt iir data = .ok t ∧ SerialInv t ∧ t.written = s.written := by
  obtain ⟨htransit, items, hstores⟩ := h
  unfold State.interrupt
  split
  next => exact ⟨_, rfl, ⟨htransit, items, hstores⟩, rfl⟩
  next =>
    split
    next =>
      obtain ⟨ret, rxQueue, items', hok, hstores'⟩ :=
        received_enqueue hstores data
      rw [hok]
      exact ⟨_, rfl, ⟨htransit, items', hstores'⟩, rfl⟩
    next => exact ⟨_, rfl, ⟨htransit, items, hstores⟩, rfl⟩

theorem interrupt_keepsOrder (h : SerialInv s) (iir data : BitVec 8) :
    KeepsOrder s (.interrupt iir data) := by
  obtain ⟨t, hok, hinv, hwritten⟩ := interrupt_ok h iir data
  simp only [KeepsOrder, State.step]
  split
  next =>
    rw [hok]
    exact (keeps_quiet_iff hwritten).2 hinv.transit
  next => exact keeps_none

theorem keepsOrder_iff (h : SerialInv s) (a : SerialStep) :
    KeepsOrder s a ↔ InTurn s a := by
  cases a with
  | send ch => exact iff_of_true (send_keepsOrder h.transit ch) trivial
  | tryEnqueue => exact tryEnqueue_keepsOrder_iff h.transit
  | pollLsr => exact iff_of_true (pollLsr_keepsOrder h.transit) trivial
  | writeData => exact writeData_keepsOrder_iff h.transit
  | interrupt iir data =>
      exact iff_of_true (interrupt_keepsOrder h iir data) trivial
  | drain => exact drain_keepsOrder_iff h.transit
  | lineStatus lsr =>
      refine iff_of_true ((keeps_quiet_iff ?_).2 h.transit) trivial
      rfl

theorem mapError_ok {x : Except Fault State} (h : x.mapError some = .ok t) :
    x = .ok t := by
  cases x with
  | error e => cases h
  | ok t' =>
      cases h
      rfl

theorem tryEnqueue_rxQueue (hok : s.tryEnqueue ch = .ok t) :
    t.rxQueue = s.rxQueue := by
  obtain ⟨⟨ret, txQueue⟩, _, ht⟩ := bind_eq_ok hok
  cases ht
  rfl

theorem drain_rxQueue (hok : s.drain = .ok t) : t.rxQueue = s.rxQueue := by
  obtain ⟨⟨data, txQueue⟩, _, ht⟩ := bind_eq_ok hok
  cases data with
  | none =>
      cases ht
      rfl
  | some data =>
      cases ht
      rfl

theorem step_received (h : SerialInv s) (hstep : s.step a = .ok t) :
    ∃ items, t.rxQueue.Stores archI586SerialQueueSize 1 items := by
  have hsame : t.rxQueue = s.rxQueue →
      ∃ items, t.rxQueue.Stores archI586SerialQueueSize 1 items := by
    intro heq
    rw [heq]
    exact h.received
  cases a with
  | send ch =>
      simp only [State.step] at hstep
      split at hstep
      next =>
        cases hstep
        exact hsame rfl
      next => cases hstep
  | tryEnqueue =>
      simp only [State.step] at hstep
      split at hstep
      next => exact hsame (tryEnqueue_rxQueue (mapError_ok hstep))
      next => cases hstep
  | pollLsr =>
      simp only [State.step] at hstep
      split at hstep
      next =>
        cases hstep
        apply hsame
        unfold State.pollLsr
        split <;> rfl
      next => cases hstep
  | writeData =>
      simp only [State.step] at hstep
      split at hstep
      next =>
        cases hstep
        exact hsame rfl
      next => cases hstep
  | interrupt iir data =>
      simp only [State.step] at hstep
      split at hstep
      next =>
        obtain ⟨t', hok, hinv, _⟩ := interrupt_ok h iir data
        rw [hok] at hstep
        cases hstep
        exact hinv.received
      next => cases hstep
  | drain =>
      simp only [State.step] at hstep
      split at hstep
      next => exact hsame (drain_rxQueue (mapError_ok hstep))
      next => cases hstep
  | lineStatus lsr =>
      cases hstep
      exact hsame rfl

theorem initial_serialInv (lsr : BitVec 8) : SerialInv (State.initial lsr) := by
  have hstores : (State.initial lsr).txQueue.Stores archI586SerialQueueSize 1
      [] := by
    refine Queue.init_stores (by decide) ?_
    rw [List.length_replicate, Nat.mul_one]
  exact ⟨⟨[], hstores, rfl⟩, [], hstores⟩

/-- In every run, whatever the line status does, the bytes are written in the
order in which they are given, each once and while the transmitter is ready,
exactly when every step is taken in turn. -/
theorem serialRun_keepsOrder_iff (lsr : BitVec 8) (steps : List SerialStep) :
    TransitionRun.Admitted KeepsOrder State.step (State.initial lsr) steps ↔
      TransitionRun.Admitted InTurn State.step (State.initial lsr) steps := by
  have hiff : ∀ s a, SerialInv s → (KeepsOrder s a ↔ InTurn s a) :=
    fun _ a h => keepsOrder_iff h a
  have hstep : ∀ s a t, SerialInv s → InTurn s a → s.step a = .ok t →
      SerialInv t := fun s a t h hgood hok =>
    ⟨((keepsOrder_iff h a).2 hgood).order t hok, step_received h hok⟩
  exact TransitionRun.admitted_iff hiff hstep (initial_serialInv lsr) steps

/-- A byte given while the transmitter is busy is stored again and again, and
written twice by the handler. -/
theorem stored_byte_written_twice : ¬ ∀ lsr steps,
    TransitionRun.Admitted KeepsOrder State.step (State.initial lsr) steps := by
  intro hall
  have hrun := hall 0 [.send 0x61, .tryEnqueue, .tryEnqueue, .lineStatus 0x20,
    .interrupt 2 0, .drain, .drain]
  have hlast := ((((((hrun.2 _ rfl).2 _ rfl).2 _ rfl).2 _ rfl).2 _ rfl).2 _
    rfl).1
  obtain ⟨queued, _, horder⟩ := hlast.order _ rfl
  have htwice : [0x61#8, 0x61#8] ++ queued ++ [] = [0x61#8] := horder
  simp at htwice

end Serial
end Yjkos
