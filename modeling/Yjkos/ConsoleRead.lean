import Yjkos.Kbd
import Yjkos.Queue
import Yjkos.Vgatty

/-!
# Reading from the console

The queue of key events of `kernel/io/kbd.c`, and `stream_op_read` of
`kernel/io/vt100tty.c` and `kernel/arch/i586/vgatty.c`, which take the typed
characters from it.
-/

namespace Yjkos
namespace Kbd

/-- The value of a `KBD_KEY`. -/
def Key.code (key : Key) : ℕ := (invalid :: fromOne).idxOf key

def Key.ofCode (code : ℕ) : Key := (invalid :: fromOne).getD code .invalid

@[simp] theorem Key.ofCode_code (key : Key) : ofCode key.code = key := by
  cases key <;> decide

/-- `sizeof(struct kbd_key_event)`: an `int`, a `char` and a bit-field, with
two bytes behind them. -/
def eventSize : ℕ := 8

/-- The number of items of `s_event_queue_buf`. -/
def eventQueueLength : ℕ := 500

def KeyEvent.bytes (event : KeyEvent) : List (BitVec 8) :=
  [BitVec.ofNat 8 event.key.code, 0#8, 0#8, 0#8, event.chr,
    if event.isDown then 1#8 else 0#8, 0#8, 0#8]

def KeyEvent.ofBytes (bytes : List (BitVec 8)) : KeyEvent where
  key := .ofCode (bytes.getD 0 0#8).toNat
  chr := bytes.getD 4 0#8
  isDown := (bytes.getD 5 0#8).getLsbD 0

/-- `s_event_queue`, whose array is there from the first use on. -/
def eventQueue (s : Option Queue) : Queue :=
  s.getD (.init (List.replicate (eventQueueLength * eventSize) 0#8) eventSize
    eventQueueLength)

/-- An event which finds the queue full is lost. -/
def pushEvent (s : Option Queue) (event : KeyEvent) :
    Except Fault (Option Queue) := do
  let (_, queue) ← (eventQueue s).enqueue event.bytes
  .ok (some queue)

def kbdPullEvent (s : Option Queue) :
    Except Fault (Option KeyEvent × Option Queue) := do
  let (data, queue) ← (eventQueue s).dequeue eventSize
  .ok (data.map KeyEvent.ofBytes, some queue)

/-- The events in the queue. -/
def Pending (s : Option Queue) (events : List KeyEvent) : Prop :=
  (eventQueue s).Stores eventQueueLength eventSize (events.map KeyEvent.bytes)

/-- An event of a character being typed. -/
def KeyEvent.isTyped (event : KeyEvent) : Bool :=
  event.isDown && event.chr != 0

def typed (events : List KeyEvent) : List (BitVec 8) :=
  (events.filter KeyEvent.isTyped).map KeyEvent.chr

variable {s s' : Option Queue} {events : List KeyEvent} {event : KeyEvent}

@[simp] theorem KeyEvent.bytes_length (event : KeyEvent) :
    event.bytes.length = eventSize := rfl

theorem Key.code_lt (key : Key) : key.code < 256 := by
  cases key <;> decide

@[simp] theorem KeyEvent.ofBytes_bytes (event : KeyEvent) :
    ofBytes event.bytes = event := by
  obtain ⟨key, chr, isDown⟩ := event
  have hkey : Key.ofCode (key.code % 256) = key := by
    rw [Nat.mod_eq_of_lt key.code_lt, Key.ofCode_code]
  cases isDown <;> simp [bytes, ofBytes, hkey]

theorem KeyEvent.bytes_injective : Function.Injective KeyEvent.bytes :=
  Function.LeftInverse.injective KeyEvent.ofBytes_bytes

theorem Pending.unique {events' : List KeyEvent} (h : Pending s events)
    (h' : Pending s events') : events = events' :=
  List.map_injective_iff.2 KeyEvent.bytes_injective (Queue.Stores.unique h h')

theorem pending_nil : Pending none [] :=
  Queue.init_stores (by decide) (by simp)

/-- As long as there is room, the events are kept in the order in which they
come. -/
theorem pushEvent_pending (h : Pending s events)
    (hroom : events.length < eventQueueLength) (event : KeyEvent) :
    ∃ s', pushEvent s event = .ok s' ∧ Pending s' (events ++ [event]) := by
  obtain ⟨queue, hok, hstores⟩ := Queue.enqueue_room h event.bytes_length
    (by rwa [List.length_map])
  refine ⟨some queue, ?_, ?_⟩
  · unfold pushEvent
    rw [hok]
    rfl
  · unfold Pending
    rw [List.map_append]
    exact hstores

theorem kbdPullEvent_nil (h : Pending s []) :
    kbdPullEvent s = .ok (none, some (eventQueue s)) := by
  unfold kbdPullEvent
  rw [Queue.dequeue_nil h]
  rfl

theorem kbdPullEvent_cons (h : Pending s (event :: events)) :
    ∃ s', kbdPullEvent s = .ok (some event, s') ∧ Pending s' events := by
  obtain ⟨queue, hok, hstores⟩ := Queue.dequeue_cons h
  refine ⟨some queue, ?_, hstores⟩
  unfold kbdPullEvent
  rw [hok]
  simp [ok_bind]

@[simp] theorem typed_nil : typed [] = [] := rfl

theorem typed_cons (event : KeyEvent) (events : List KeyEvent) :
    typed (event :: events) =
      if event.isTyped then event.chr :: typed events else typed events := by
  unfold typed
  rw [List.filter_cons]
  split <;> rfl

theorem typed_append (events events' : List KeyEvent) :
    typed (events ++ events') = typed events ++ typed events' := by
  unfold typed
  rw [List.filter_append, List.map_append]

end Kbd

namespace Console

open Kbd

/-- `s` is the queue of key events, `buf` the caller's buffer and `readLen`
counts the characters.  The bound of the loop is the number of `turns`. -/
def readTurns : ℕ → Option Queue → List (BitVec 8) → ℕ →
    Except Fault (ℕ × List (BitVec 8) × Option Queue)
  | 0, s, buf, readLen => .ok (readLen, buf, s)
  | turns + 1, s, buf, readLen => do
      let (event, s) ← kbdPullEvent s
      match event with
      | none => .ok (readLen, buf, s)
      | some event =>
          if !event.isDown then readTurns turns s buf readLen
          else if event.chr = 0 then readTurns turns s buf readLen
          else readTurns turns s (buf.set 0 event.chr) (readLen + 1)

/-- The text of the two consoles' `stream_op_read`.  The buffer has room for
`size` bytes. -/
def readEvents (s : Option Queue) (buf : List (BitVec 8)) :
    Except Fault (ℕ × List (BitVec 8) × Option Queue) := do
  cAssert (buf.length ≤ maxTransferSize) "size <= STREAM_MAX_TRANSFER_SIZE"
  readTurns buf.length s buf 0

def Vt100tty.streamOpRead (s : Option Queue) (buf : List (BitVec 8)) :
    Except Fault (ℕ × List (BitVec 8) × Option Queue) := readEvents s buf

def Vgatty.streamOpRead (s : Option Queue) (buf : List (BitVec 8)) :
    Except Fault (ℕ × List (BitVec 8) × Option Queue) := readEvents s buf

/-- Reads into one buffer after the other, with all bytes which they give. -/
def readAll (read : Option Queue → List (BitVec 8) →
      Except Fault (ℕ × List (BitVec 8) × Option Queue)) (s : Option Queue) :
    List (List (BitVec 8)) → Except Fault (List (BitVec 8) × Option Queue)
  | [] => .ok ([], s)
  | buf :: bufs => do
      let (n, buf, s) ← read s buf
      let (more, s) ← readAll read s bufs
      .ok (buf.take n ++ more, s)

/-- What a read of `size` bytes is to give when `events` are pending and
`rest` are left. -/
structure Delivers (events rest : List KeyEvent) (size n : ℕ)
    (buf : List (BitVec 8)) : Prop where
  length_le : n ≤ size
  stored : buf.take n = (typed events).take n
  consumed : typed rest = (typed events).drop n
  ended : n < size → typed rest = []

/-- Each read gives the next characters. -/
def ReadsNext (read : Option Queue → List (BitVec 8) →
      Except Fault (ℕ × List (BitVec 8) × Option Queue)) :
    Option Queue → List KeyEvent → List (List (BitVec 8)) → Prop
  | _, _, [] => True
  | s, events, buf :: bufs => ∃ n buf' s' rest,
      read s buf = .ok (n, buf', s') ∧ Pending s' rest ∧
        Delivers events rest buf.length n buf' ∧ ReadsNext read s' rest bufs

/-- Whatever is in the buffers before, each read gives the next characters,
and together they give every character once. -/
def DeliversTyped (read : Option Queue → List (BitVec 8) →
      Except Fault (ℕ × List (BitVec 8) × Option Queue)) (s : Option Queue)
    (events : List KeyEvent) (sizes : List ℕ) : Prop :=
  ∀ bufs : List (List (BitVec 8)), bufs.map List.length = sizes →
    ReadsNext read s events bufs ∧
      ∃ got s' rest, readAll read s bufs = .ok (got, s') ∧
        Pending s' rest ∧ got ++ typed rest = typed events

/-- Each read finds at most one character in the `size` first events.  It is
all that was asked for, or there is none behind these events. -/
def InTime : List KeyEvent → List ℕ → Prop
  | _, [] => True
  | events, size :: sizes =>
      (typed (events.take size)).length ≤ 1 ∧
        ((typed (events.take size)).length = size ∨
          typed (events.drop size) = []) ∧
        InTime (events.drop size) sizes

variable {s s' : Option Queue} {events rest : List KeyEvent}
  {buf : List (BitVec 8)}

/-- The loop takes as many events as it has turns, and stores every character
at the start of the buffer. -/
theorem readTurns_spec (h : Pending s events) (turns : ℕ)
    (buf : List (BitVec 8)) (readLen : ℕ) :
    ∃ s', readTurns turns s buf readLen =
        .ok (readLen + (typed (events.take turns)).length,
          (typed (events.take turns)).foldl (fun b c => b.set 0 c) buf, s') ∧
      Pending s' (events.drop turns) := by
  induction turns generalizing s events buf readLen with
  | zero => exact ⟨s, rfl, h⟩
  | succ turns ih =>
      cases events with
      | nil =>
          refine ⟨some (eventQueue s), ?_, h⟩
          rw [readTurns, kbdPullEvent_nil h]
          rfl
      | cons event events =>
          obtain ⟨s₁, hpull, hs₁⟩ := kbdPullEvent_cons h
          rw [readTurns, hpull, List.take_succ_cons, typed_cons]
          simp only [ok_bind]
          by_cases htyped : event.isTyped = true
          · obtain ⟨hdown, hchr⟩ := Bool.and_eq_true_iff.1 htyped
            rw [bne_iff_ne] at hchr
            obtain ⟨s', hok, hs'⟩ := ih hs₁ (buf.set 0 event.chr) (readLen + 1)
            refine ⟨s', ?_, hs'⟩
            rw [if_neg (by simp [hdown]), if_neg hchr, hok, if_pos htyped,
              List.length_cons, List.foldl_cons]
            congr 2
            omega
          · obtain ⟨s', hok, hs'⟩ := ih hs₁ buf readLen
            refine ⟨s', ?_, hs'⟩
            rw [if_neg htyped, ← hok]
            split
            next => rfl
            next hdown =>
              rw [if_pos]
              simpa [KeyEvent.isTyped, by simpa using hdown] using htyped

theorem readEvents_spec (h : Pending s events)
    (hsize : buf.length ≤ maxTransferSize) :
    ∃ s', readEvents s buf =
        .ok ((typed (events.take buf.length)).length,
          (typed (events.take buf.length)).foldl (fun b c => b.set 0 c) buf,
          s') ∧
      Pending s' (events.drop buf.length) := by
  obtain ⟨s', hok, hs'⟩ := readTurns_spec h buf.length buf 0
  refine ⟨s', ?_, hs'⟩
  rw [readEvents, cAssert_of (decide_eq_true hsize), ok_bind, hok, Nat.zero_add]

theorem typed_split (events : List KeyEvent) (size : ℕ) :
    typed (events.take size) ++ typed (events.drop size) = typed events := by
  rw [← typed_append, List.take_append_drop]

theorem typed_take_length_le (events : List KeyEvent) (size : ℕ) :
    (typed (events.take size)).length ≤ size := by
  unfold typed
  rw [List.length_map]
  exact (List.length_filter_le _ _).trans (List.length_take_le size events)

/-- The first byte is the last one stored, and the others are left alone. -/
theorem foldl_set_drop (chars : List (BitVec 8)) (buf : List (BitVec 8)) :
    (chars.foldl (fun b c => b.set 0 c) buf).drop 1 = buf.drop 1 := by
  induction chars generalizing buf with
  | nil => rfl
  | cons c chars ih =>
      rw [List.foldl_cons, ih]
      cases buf <;> rfl

/-- A read is right for all contents of the buffer exactly when it stores at
most one character and leaves none behind without need. -/
theorem delivers_iff (events : List KeyEvent) (size : ℕ) :
    (∀ buf : List (BitVec 8), buf.length = size →
      Delivers events (events.drop size) size
        (typed (events.take size)).length
        ((typed (events.take size)).foldl (fun b c => b.set 0 c) buf)) ↔
    (typed (events.take size)).length ≤ 1 ∧
      ((typed (events.take size)).length = size ∨
        typed (events.drop size) = []) := by
  have hle := typed_take_length_le events size
  have hsplit := typed_split events size
  generalize typed (events.take size) = chars at hle hsplit ⊢
  constructor
  · intro h
    refine ⟨?_, ?_⟩
    · by_contra hmany
      rcases chars with _ | ⟨c, _ | ⟨c', more⟩⟩
      · exact hmany (Nat.zero_le 1)
      · exact hmany le_rfl
      · -- a buffer whose bytes are not the second character
        have hstored := (h (List.replicate size (c' + 1))
          List.length_replicate).stored
        rw [← hsplit, List.take_left] at hstored
        have hsecond := congrArg (fun l => (l.drop 1).head?) hstored
        simp only [List.drop_take, foldl_set_drop] at hsecond
        obtain ⟨size, rfl⟩ : ∃ k, size = k + 2 := by
          rw [List.length_cons, List.length_cons] at hle
          exact ⟨size - 2, by omega⟩
        simp [List.replicate_succ] at hsecond
    · have hended := (h (List.replicate size 0) List.length_replicate).ended
      exact hle.eq_or_lt.imp_right hended
  · rintro ⟨hone, hended⟩ buf hbuf
    refine ⟨hle, ?_, ?_, ?_⟩
    · rw [← hsplit, List.take_left]
      match chars, hone with
      | [], _ => rfl
      | [c], _ =>
          cases buf with
          | nil =>
              rw [← hbuf] at hle
              cases hle
          | cons b buf => rfl
    · rw [← hsplit, List.drop_left]
    · intro hlt
      exact hended.resolve_left hlt.ne

/-- Reads which give the next characters give every character once. -/
theorem ReadsNext.readAll {bufs : List (List (BitVec 8))}
    {read : Option Queue → List (BitVec 8) →
      Except Fault (ℕ × List (BitVec 8) × Option Queue)}
    (hpending : Pending s events) (h : ReadsNext read s events bufs) :
    ∃ got s' rest, readAll read s bufs = .ok (got, s') ∧
      Pending s' rest ∧ got ++ typed rest = typed events := by
  induction bufs generalizing s events with
  | nil => exact ⟨[], s, events, rfl, hpending, rfl⟩
  | cons buf bufs ih =>
      obtain ⟨n, buf', s₁, rest₁, hread, hrest₁, hdelivers, hnext⟩ := h
      obtain ⟨more, s', rest, hmore, hrest, htyped⟩ := ih hrest₁ hnext
      refine ⟨buf'.take n ++ more, s', rest, ?_, hrest, ?_⟩
      · rw [Console.readAll, hread]
        simp only [ok_bind, hmore]
      · rw [List.append_assoc, htyped, hdelivers.stored, hdelivers.consumed,
          List.take_append_drop]

theorem readsNext_cons_iff {bufs : List (List (BitVec 8))}
    (h : Pending s events) (hsize : buf.length ≤ maxTransferSize) :
    ReadsNext readEvents s events (buf :: bufs) ↔
      Delivers events (events.drop buf.length) buf.length
        (typed (events.take buf.length)).length
        ((typed (events.take buf.length)).foldl (fun b c => b.set 0 c) buf) ∧
      ∀ s', Pending s' (events.drop buf.length) →
        readEvents s buf = .ok ((typed (events.take buf.length)).length,
          (typed (events.take buf.length)).foldl (fun b c => b.set 0 c) buf,
          s') → ReadsNext readEvents s' (events.drop buf.length) bufs := by
  obtain ⟨s₁, hok, hs₁⟩ := readEvents_spec h hsize
  constructor
  · rintro ⟨n, buf', s₂, rest, hread, hrest, hdelivers, hnext⟩
    rw [hok] at hread
    cases hread
    obtain rfl := hs₁.unique hrest
    refine ⟨hdelivers, fun s' _ hread => ?_⟩
    rw [hok] at hread
    cases hread
    exact hnext
  · rintro ⟨hdelivers, hnext⟩
    exact ⟨_, _, s₁, _, hok, hs₁, hdelivers, hnext s₁ hs₁ hok⟩

/-- The reads of the given sizes give the next characters, whatever is in the
buffers, exactly when they come in time. -/
theorem readsNext_iff (h : Pending s events) {sizes : List ℕ}
    (hsizes : ∀ size ∈ sizes, size ≤ maxTransferSize) :
    (∀ bufs : List (List (BitVec 8)), bufs.map List.length = sizes →
      ReadsNext readEvents s events bufs) ↔ InTime events sizes := by
  induction sizes generalizing s events with
  | nil =>
      refine iff_of_true (fun bufs hbufs => ?_) trivial
      rw [List.map_eq_nil_iff.1 hbufs]
      trivial
  | cons size sizes ih =>
      rw [List.forall_mem_cons] at hsizes
      rw [InTime, ← and_assoc, ← delivers_iff]
      constructor
      · intro hall
        refine ⟨fun buf hbuf => ?_, ?_⟩
        · have hthis := hall (buf :: sizes.map (List.replicate · 0)) (by
            rw [List.map_cons, hbuf, List.map_map]
            simp [Function.comp_def])
          rw [readsNext_cons_iff h (hbuf ▸ hsizes.1), hbuf] at hthis
          exact hthis.1
        · have hlength : (List.replicate size (0#8)).length = size :=
            List.length_replicate
          obtain ⟨s₁, hok, hs₁⟩ := readEvents_spec h
            (hlength.symm ▸ hsizes.1)
          rw [← hlength, ← ih hs₁ hsizes.2]
          intro bufs hbufs
          have hthis := hall (List.replicate size (0#8) :: bufs) (by
            rw [List.map_cons, hlength, hbufs])
          rw [readsNext_cons_iff h (hlength.symm ▸ hsizes.1)] at hthis
          exact hthis.2 s₁ hs₁ hok
      · rintro ⟨hdelivers, hnext⟩ bufs hbufs
        cases bufs with
        | nil => cases hbufs
        | cons buf bufs =>
            obtain ⟨rfl, hrest⟩ := List.cons.inj hbufs
            rw [readsNext_cons_iff h hsizes.1]
            refine ⟨hdelivers buf rfl, fun s' hs' _ => ?_⟩
            exact (ih hs' hsizes.2).2 hnext bufs hrest

theorem deliversTyped_iff (h : Pending s events) {sizes : List ℕ}
    (hsizes : ∀ size ∈ sizes, size ≤ maxTransferSize) :
    DeliversTyped readEvents s events sizes ↔ InTime events sizes := by
  rw [← readsNext_iff h hsizes]
  constructor
  · exact fun hall bufs hbufs => (hall bufs hbufs).1
  · intro hall bufs hbufs
    exact ⟨hall bufs hbufs, (hall bufs hbufs).readAll h⟩

/-- For any pending events and any sizes, the reads of a console deliver the
typed characters exactly when they come in time. -/
theorem console_delivers_iff (h : Pending s events) {sizes : List ℕ}
    (hsizes : ∀ size ∈ sizes, size ≤ maxTransferSize) :
    (DeliversTyped Vt100tty.streamOpRead s events sizes ↔
      InTime events sizes) ∧
    (DeliversTyped Vgatty.streamOpRead s events sizes ↔
      InTime events sizes) :=
  ⟨deliversTyped_iff h hsizes, deliversTyped_iff h hsizes⟩

/-- Two keys are read one by one; their releases give no character. -/
theorem two_keys_delivered : ∃ s,
    Pending s [⟨.a, 0x61#8, true⟩, ⟨.b, 0x62#8, true⟩, ⟨.a, 0x61#8, false⟩,
      ⟨.b, 0x62#8, false⟩] ∧
    DeliversTyped Vt100tty.streamOpRead s
      [⟨.a, 0x61#8, true⟩, ⟨.b, 0x62#8, true⟩, ⟨.a, 0x61#8, false⟩,
        ⟨.b, 0x62#8, false⟩] [1, 1, 2] := by
  obtain ⟨s₁, _, hs₁⟩ := pushEvent_pending pending_nil (by decide)
    ⟨.a, 0x61#8, true⟩
  obtain ⟨s₂, _, hs₂⟩ := pushEvent_pending hs₁ (by decide)
    ⟨.b, 0x62#8, true⟩
  obtain ⟨s₃, _, hs₃⟩ := pushEvent_pending hs₂ (by decide)
    ⟨.a, 0x61#8, false⟩
  obtain ⟨s₄, _, hs₄⟩ := pushEvent_pending hs₃ (by decide)
    ⟨.b, 0x62#8, false⟩
  refine ⟨s₄, hs₄, ((console_delivers_iff hs₄ (by decide)).1).2 ?_⟩
  simp only [InTime]
  decide

/-- Both characters are stored in the first byte of the buffer. -/
theorem second_key_overwrites_first : ¬ ∀ s events sizes,
    Pending s events → (∀ size ∈ sizes, size ≤ maxTransferSize) →
    DeliversTyped Vt100tty.streamOpRead s events sizes := by
  intro hall
  obtain ⟨s, _, hs⟩ := pushEvent_pending pending_nil (by decide)
    ⟨.a, 0x61#8, true⟩
  obtain ⟨s', _, hs'⟩ := pushEvent_pending hs (by decide)
    ⟨.b, 0x62#8, true⟩
  have htime := (deliversTyped_iff hs' (by decide)).1
    (hall s' _ [2] hs' (by decide))
  exact absurd htime.1 (by decide)

end Console
end Yjkos
