import Yjkos.Ps2Kbd
import Yjkos.TransitionRun

/-!
# The bytes of a scancode

Where `ps2_op_bytereceived` stores a byte, and when `report_bad_scancode`
knows what to print.  A scancode has at most five bytes, each of which leads
to another input state.  The array overflows through bytes which leave the
input state as it is: responses, which are handled in front of the state
machine, and data for which there is no command.
-/

namespace Yjkos
namespace Ps2Kbd

open Kbd (Key)

/-- What a byte must not stop at. -/
def Harmless (e : Fault) : Prop :=
  e ≠ .outOfBounds ∧ e ≠ .assertion "false"

def StopsHarmless {α : Type} (x : Except Fault α) : Prop :=
  ∀ e, x = .error e → Harmless e

theorem stopsHarmless_ok {α : Type} (a : α) : StopsHarmless (.ok a) := nofun

theorem StopsHarmless.bind {α β : Type} {x : Except Fault α}
    {f : α → Except Fault β} (hx : StopsHarmless x)
    (hf : ∀ a, StopsHarmless (f a)) : StopsHarmless (x >>= f) := by
  intro e he
  rcases bind_eq_error he with hstop | ⟨a, _, hstop⟩
  · exact hx e hstop
  · exact hf a e hstop

namespace Commands

variable (c : Commands)

theorem cmdAt_harmless (cmd : ℕ) : StopsHarmless (c.cmdAt cmd) := by
  intro e he
  unfold cmdAt at he
  split at he
  next => cases he
  next =>
    cases he
    exact ⟨nofun, nofun⟩

theorem insertFront_harmless (cmd : ℕ) :
    StopsHarmless (c.insertFront cmd) := by
  unfold insertFront
  split
  next => exact stopsHarmless_ok _
  next front _ _ =>
    exact (cmdAt_harmless c front).bind fun _ => stopsHarmless_ok _

theorem sendNext_harmless (putOk : Bool) :
    StopsHarmless (c.sendNext putOk) := by
  unfold sendNext
  split
  next => exact stopsHarmless_ok _
  next cmd _ =>
    refine (cmdAt_harmless c cmd).bind fun x => ?_
    dsimp only
    split
    next => exact stopsHarmless_ok _
    next => exact stopsHarmless_ok _

theorem cmdFinished_harmless (finalstate : CmdState) (putOk : Bool) :
    StopsHarmless (c.cmdFinished finalstate putOk) := by
  unfold cmdFinished
  split
  next =>
    intro e he
    cases he
    exact ⟨nofun, by decide⟩
  next cmd _ =>
    exact (cmdAt_harmless _ cmd).bind fun x => sendNext_harmless _ putOk

end Commands

namespace Kbdcontext

/-- A handler has left the stored bytes and has gone to an input state. -/
structure After (s : Kbdcontext) (next : InputState) (t : Kbdcontext) :
    Prop where
  index : t.nextKeyByteIndex = s.nextKeyByteIndex
  state : t.state = next

/-- Where a handler leads, if it returns. -/
def EndsIn (s : Kbdcontext) (next : InputState) (x : Except Fault Kbdcontext) :
    Prop :=
  StopsHarmless x ∧ ∀ s', x = .ok s' → After s next s'

variable {s t : Kbdcontext} {next : InputState}

theorem endsIn_ok (hafter : After s next t) : EndsIn s next (.ok t) := by
  refine ⟨stopsHarmless_ok t, ?_⟩
  rintro s' heq
  cases heq
  exact hafter

theorem endsIn_bind {α : Type} {x : Except Fault α}
    {f : α → Except Fault Kbdcontext} (hx : StopsHarmless x)
    (hf : ∀ a, x = .ok a → EndsIn s next (f a)) : EndsIn s next (x >>= f) := by
  cases x with
  | error e =>
      refine ⟨?_, fun s' hs' => nomatch hs'⟩
      rintro e' ⟨⟩
      exact hx e rfl
  | ok a => exact hf a rfl

theorem endsIn_finish {x : Except Fault Commands} (hx : StopsHarmless x) :
    EndsIn s s.state (do
      let c ← x
      .ok (s.withCommands c)) :=
  endsIn_bind hx fun _ _ => endsIn_ok ⟨rfl, rfl⟩

/-! ## Responses and data -/

/-- The command at the back waits for the byte behind its ACK. -/
def awaitsData (s : Kbdcontext) : Bool :=
  match s.back with
  | none => false
  | some cmd =>
      match s.heap cmd with
      | none => false
      | some x => x.state = .waitingresponse && x.needdata

theorem cmdAt_ok {c : Commands} {cmd : ℕ} {x : CmdContext}
    (h : c.cmdAt cmd = .ok x) : c.heap cmd = some x := by
  unfold Commands.cmdAt at h
  split at h
  next y hy =>
    cases h
    exact hy
  next => cases h

theorem awaitsData_none (h : s.back = none) : s.awaitsData = false := by
  unfold awaitsData
  rw [h]

theorem awaitsData_some {cmd : ℕ} {x : CmdContext} (h : s.back = some cmd)
    (hx : s.heap cmd = some x) :
    s.awaitsData = (decide (x.state = .waitingresponse) && x.needdata) := by
  unfold awaitsData
  rw [h]
  dsimp only
  rw [hx]

theorem ackReceived_endsIn (s : Kbdcontext) (putOk : Bool) :
    EndsIn s (if s.awaitsData then .waitingResponsedata else s.state)
      (s.ackReceived putOk) := by
  unfold ackReceived
  cases hback : s.back with
  | none =>
      rw [awaitsData_none hback]
      exact endsIn_ok ⟨rfl, rfl⟩
  | some cmd =>
      refine endsIn_bind (Commands.cmdAt_harmless _ cmd) fun x hx => ?_
      rw [awaitsData_some hback (cmdAt_ok hx)]
      by_cases hwaits : x.state = .waitingresponse
      · rw [if_neg (not_not.2 hwaits), decide_eq_true hwaits, Bool.true_and]
        split
        next => exact endsIn_ok ⟨rfl, rfl⟩
        next => exact endsIn_finish (Commands.cmdFinished_harmless _ _ _)
      · rw [if_pos hwaits, decide_eq_false hwaits]
        exact endsIn_ok ⟨rfl, rfl⟩

theorem resendReceived_endsIn (s : Kbdcontext) (putOk : Bool) :
    EndsIn s s.state (s.resendReceived putOk) := by
  unfold resendReceived
  split
  next => exact endsIn_ok ⟨rfl, rfl⟩
  next cmd _ =>
    refine endsIn_bind (Commands.cmdAt_harmless _ cmd) fun x _ => ?_
    split
    next => exact endsIn_ok ⟨rfl, rfl⟩
    next =>
      split
      next =>
        dsimp only
        split
        next => exact endsIn_ok ⟨rfl, rfl⟩
        next => exact endsIn_ok ⟨rfl, rfl⟩
      next => exact endsIn_finish (Commands.cmdFinished_harmless _ _ _)

theorem echoReceived_endsIn (s : Kbdcontext) (putOk : Bool) :
    EndsIn s s.state (s.echoReceived putOk) := by
  unfold echoReceived
  split
  next => exact endsIn_ok ⟨rfl, rfl⟩
  next cmd _ =>
    refine endsIn_bind (Commands.cmdAt_harmless _ cmd) fun x _ => ?_
    split
    next => exact endsIn_ok ⟨rfl, rfl⟩
    next =>
      split
      next => exact endsIn_ok ⟨rfl, rfl⟩
      next => exact endsIn_finish (Commands.cmdFinished_harmless _ _ _)

theorem responseByteReceived_endsIn (s : Kbdcontext) (byte : BitVec 8)
    (putOk : Bool) :
    EndsIn s (if s.back = none then s.state else .default)
      (s.responseByteReceived byte putOk) := by
  unfold responseByteReceived
  cases s.back with
  | none => exact endsIn_ok ⟨rfl, rfl⟩
  | some cmd =>
      rw [if_neg (Option.some_ne_none cmd)]
      refine endsIn_bind (Commands.cmdAt_harmless _ cmd) fun x _ => ?_
      dsimp only
      split
      next => exact endsIn_ok ⟨rfl, rfl⟩
      next =>
        exact endsIn_bind (Commands.cmdFinished_harmless _ _ _)
          fun _ _ => endsIn_ok ⟨rfl, rfl⟩

/-! ## Keys -/

/-- The number of stored bytes is one which can be reported. -/
def Reportable (s : Kbdcontext) : Prop :=
  1 ≤ s.nextKeyByteIndex ∧ s.nextKeyByteIndex ≤ 8

theorem reportBadScancode_endsIn (h : Reportable s) (hafter : After s next t) :
    EndsIn s next t.reportBadScancode := by
  unfold reportBadScancode
  rw [hafter.index, if_pos (show _ ∧ _ from h)]
  exact endsIn_ok ⟨rfl, hafter.state⟩

theorem keyPressed_endsIn (h : Reportable s) (hafter : After s next t)
    (key : Key) : EndsIn s next (t.keyPressed key) := by
  unfold keyPressed
  split
  next => exact reportBadScancode_endsIn h hafter
  next => exact endsIn_ok ⟨hafter.index, hafter.state⟩

theorem keyReleased_endsIn (h : Reportable s) (hafter : After s next t)
    (key : Key) : EndsIn s next (t.keyReleased key) := by
  unfold keyReleased
  split
  next => exact reportBadScancode_endsIn h hafter
  next => exact endsIn_ok ⟨hafter.index, hafter.state⟩

/-- A call about Print Screen or Pause, made when both of its fake keys are
where they belong. -/
theorem endsIn_check {both : Bool} {x : Except Fault Kbdcontext}
    (hx : EndsIn s next x) (hafter : After s next t) :
    EndsIn s next (if both then x else .ok t) := by
  split
  next => exact hx
  next => exact endsIn_ok hafter

theorem checkPrintscreenPress_endsIn (h : Reportable s)
    (hafter : After s next t) : EndsIn s next t.checkPrintscreenPress :=
  endsIn_check (keyPressed_endsIn h hafter _) hafter

theorem checkPrintscreenRelease_endsIn (h : Reportable s)
    (hafter : After s next t) : EndsIn s next t.checkPrintscreenRelease :=
  endsIn_check (keyReleased_endsIn h hafter _) hafter

theorem checkPausePress_endsIn (h : Reportable s) (hafter : After s next t) :
    EndsIn s next t.checkPausePress :=
  endsIn_check (keyPressed_endsIn h hafter _) hafter

theorem checkPauseRelease_endsIn (h : Reportable s) (hafter : After s next t) :
    EndsIn s next t.checkPauseRelease :=
  endsIn_check (keyReleased_endsIn h hafter _) hafter

theorem e0ExtReceived_endsIn (h : Reportable s) (byte : BitVec 8) :
    EndsIn s (if byte = 0xf0 then .waitingE0release else .default)
      (s.e0ExtReceived byte) := by
  unfold e0ExtReceived
  dsimp only
  split
  next => exact endsIn_ok ⟨rfl, rfl⟩
  next =>
    split
    next => exact checkPrintscreenPress_endsIn h ⟨rfl, rfl⟩
    next =>
      split
      next => exact checkPrintscreenPress_endsIn h ⟨rfl, rfl⟩
      next =>
        refine keyPressed_endsIn h ?_ _
        exact ⟨rfl, rfl⟩

theorem e0ReleaseReceived_endsIn (h : Reportable s) (byte : BitVec 8) :
    EndsIn s .default (s.e0ReleaseReceived byte) := by
  unfold e0ReleaseReceived
  dsimp only
  split
  next => exact checkPrintscreenRelease_endsIn h ⟨rfl, rfl⟩
  next =>
    split
    next => exact checkPrintscreenRelease_endsIn h ⟨rfl, rfl⟩
    next =>
      refine keyReleased_endsIn h ?_ _
      exact ⟨rfl, rfl⟩

theorem e1Ext1Received_endsIn (s : Kbdcontext) (byte : BitVec 8) :
    EndsIn s (if byte = 0xf0 then .waitingE1release1 else .waitingE1ext2)
      (.ok (s.e1Ext1Received byte)) := by
  unfold e1Ext1Received
  dsimp only
  refine endsIn_ok ?_
  (repeat' split) <;> exact ⟨rfl, rfl⟩

theorem e1Release1Received_endsIn (s : Kbdcontext) (byte : BitVec 8) :
    EndsIn s .waitingE1ext2 (.ok (s.e1Release1Received byte)) := by
  unfold e1Release1Received
  dsimp only
  refine endsIn_ok ?_
  (repeat' split) <;> exact ⟨rfl, rfl⟩

theorem e1Ext2Received_endsIn (h : Reportable s) (byte : BitVec 8) :
    EndsIn s (if byte = 0xf0 then .waitingE1release2 else .default)
      (s.e1Ext2Received byte) := by
  unfold e1Ext2Received
  dsimp only
  split
  next => exact endsIn_ok ⟨rfl, rfl⟩
  next =>
    split
    next => exact checkPausePress_endsIn h ⟨rfl, rfl⟩
    next =>
      split
      next => exact checkPausePress_endsIn h ⟨rfl, rfl⟩
      next => exact reportBadScancode_endsIn h ⟨rfl, rfl⟩

theorem e1Release2Received_endsIn (h : Reportable s) (byte : BitVec 8) :
    EndsIn s .default (s.e1Release2Received byte) := by
  unfold e1Release2Received
  dsimp only
  split
  next => exact checkPauseRelease_endsIn h ⟨rfl, rfl⟩
  next =>
    split
    next => exact checkPauseRelease_endsIn h ⟨rfl, rfl⟩
    next => exact reportBadScancode_endsIn h ⟨rfl, rfl⟩

theorem normalReleaseReceived_endsIn (h : Reportable s) (byte : BitVec 8) :
    EndsIn s .default (s.normalReleaseReceived byte) := by
  refine keyReleased_endsIn h ?_ _
  exact ⟨rfl, rfl⟩

/-- The input state behind the first byte of a scancode. -/
def firstState (byte : BitVec 8) : InputState :=
  if byte = 0xe0 then .waitingE0ext
  else if byte = 0xe1 then .waitingE1ext1
  else if byte = 0xf0 then .waitingNormalrelease
  else .default

theorem scancodeFirstByteReceived_endsIn (h : Reportable s)
    (hdefault : s.state = .default) (byte : BitVec 8) :
    EndsIn s (firstState byte) (s.scancodeFirstByteReceived byte) := by
  unfold scancodeFirstByteReceived firstState
  split
  next => exact endsIn_ok ⟨rfl, rfl⟩
  next =>
    split
    next => exact endsIn_ok ⟨rfl, rfl⟩
    next =>
      split
      next => exact endsIn_ok ⟨rfl, rfl⟩
      next => exact keyPressed_endsIn h ⟨rfl, hdefault⟩ _

/-- Where the state machine goes with a byte which is no response. -/
def scancodeState (s : Kbdcontext) (byte : BitVec 8) : InputState :=
  match s.state with
  | .waitingResponsedata => if s.back = none then s.state else .default
  | .waitingE0ext => if byte = 0xf0 then .waitingE0release else .default
  | .waitingE1ext1 =>
      if byte = 0xf0 then .waitingE1release1 else .waitingE1ext2
  | .waitingE1release1 => .waitingE1ext2
  | .waitingE1ext2 => if byte = 0xf0 then .waitingE1release2 else .default
  | .waitingE0release => .default
  | .waitingE1release2 => .default
  | .waitingNormalrelease => .default
  | .default => firstState byte

theorem scancodeReceived_endsIn (h : Reportable s) (byte : BitVec 8)
    (putOk : Bool) :
    EndsIn s (s.scancodeState byte) (s.scancodeReceived byte putOk) := by
  unfold scancodeReceived scancodeState
  cases hstate : s.state with
  | default => exact scancodeFirstByteReceived_endsIn h hstate byte
  | waitingResponsedata =>
      dsimp only
      rw [← hstate]
      exact responseByteReceived_endsIn s byte putOk
  | waitingE0ext => exact e0ExtReceived_endsIn h byte
  | waitingE1ext1 => exact e1Ext1Received_endsIn s byte
  | waitingE1ext2 => exact e1Ext2Received_endsIn h byte
  | waitingNormalrelease => exact normalReleaseReceived_endsIn h byte
  | waitingE0release => exact e0ReleaseReceived_endsIn h byte
  | waitingE1release1 => exact e1Release1Received_endsIn s byte
  | waitingE1release2 => exact e1Release2Received_endsIn h byte

/-! ## Superfluous bytes -/

/-- A byte which is handled in front of the state machine. -/
def isResponse (byte : BitVec 8) : Bool :=
  byte = responseAck || byte = responseResend || byte = cmdEcho

/-- An ACK for which a command waits that needs data. -/
def asksData (s : Kbdcontext) (byte : BitVec 8) : Bool :=
  byte = responseAck && s.awaitsData

/-- The input state behind a byte. -/
def nextState (s : Kbdcontext) (byte : BitVec 8) : InputState :=
  if s.asksData byte then .waitingResponsedata
  else if isResponse byte then s.state
  else s.scancodeState byte

/-- A byte which leaves the input state as it is, unless that is the default
one: a response, but for an ACK which asks for data, and data for which there
is no command. -/
def idles (s : Kbdcontext) (byte : BitVec 8) : Bool :=
  if s.state = .waitingResponsedata then isResponse byte || s.back.isNone
  else isResponse byte && !s.asksData byte

end Kbdcontext

/-- How many bytes lead from the default state to an input state.  `released`
says whether the byte behind E1 was F0. -/
def keyBytes (released : Bool) : InputState → ℕ
  | .default => 0
  | .waitingNormalrelease => 1
  | .waitingResponsedata => 1
  | .waitingE0ext => 1
  | .waitingE0release => 2
  | .waitingE1ext1 => 1
  | .waitingE1release1 => 2
  | .waitingE1ext2 => if released then 3 else 2
  | .waitingE1release2 => if released then 4 else 3

/-- What has come since the keyboard was in its default state. -/
structure Sequence where
  released : Bool
  superfluous : ℕ
deriving DecidableEq

/-- The bytes in front of an ACK which asks for data are superfluous behind
it. -/
def Kbdcontext.watch (s : Kbdcontext) (q : Sequence) (byte : BitVec 8) :
    Sequence :=
  if s.state = .default then ⟨false, 0⟩
  else if s.idles byte then { q with superfluous := q.superfluous + 1 }
  else if s.asksData byte then
    { q with superfluous := q.superfluous + keyBytes q.released s.state }
  else if s.state = .waitingE1ext1 then { q with released := byte = 0xf0 }
  else q

namespace Kbdcontext

variable {s t : Kbdcontext} {q : Sequence}

/-- Away from the default state the index counts the bytes of the scancode and
the superfluous ones. -/
structure IndexCounts (s : Kbdcontext) (q : Sequence) : Prop where
  counts : s.state ≠ .default →
    s.nextKeyByteIndex = keyBytes q.released s.state + q.superfluous
  released : s.state = .waitingE1release1 → q.released = true
  bound : s.nextKeyByteIndex ≤ 8

/-- There is room for a byte. -/
def HasRoom (s : Kbdcontext) (q : Sequence) : Prop :=
  s.state ≠ .default → q.superfluous + keyBytes q.released s.state < 8

theorem nextState_asksData {byte : BitVec 8} (h : s.asksData byte = true) :
    s.nextState byte = .waitingResponsedata := if_pos h

theorem keyBytes_firstState {byte : BitVec 8}
    (h : firstState byte ≠ .default) : keyBytes false (firstState byte) = 1 := by
  revert h
  unfold firstState
  split
  next => exact fun _ => rfl
  next =>
    split
    next => exact fun _ => rfl
    next =>
      split
      next => exact fun _ => rfl
      next => exact fun h => absurd rfl h

theorem nextState_first {byte : BitVec 8} (hdefault : s.state = .default)
    (hnext : s.nextState byte ≠ .default) :
    keyBytes false (s.nextState byte) = 1 := by
  have hscancode : s.scancodeState byte = firstState byte := by
    unfold scancodeState
    rw [hdefault]
  revert hnext
  unfold nextState
  split
  next => exact fun _ => rfl
  next =>
    split
    next => exact fun h => absurd hdefault h
    next =>
      rw [hscancode]
      exact keyBytes_firstState

/-- A byte which is superfluous leaves the input state. -/
theorem nextState_idles {byte : BitVec 8} (h : s.idles byte = true) :
    s.nextState byte = s.state := by
  unfold idles at h
  unfold nextState
  split at h
  next hdata =>
    rw [hdata]
    split
    next => rfl
    next =>
      split
      next => rfl
      next hresponse =>
        rw [Bool.eq_false_iff.2 hresponse, Bool.false_or,
          Option.isNone_iff_eq_none] at h
        unfold scancodeState
        rw [hdata]
        exact if_pos h
  next =>
    obtain ⟨hresponse, hasks⟩ := Bool.and_eq_true_iff.1 h
    rw [if_neg (by simpa using hasks), if_pos hresponse]

/-- Any other byte goes through the state machine, and what has no command is
not data. -/
theorem nextState_scancode {byte : BitVec 8} (hidles : ¬s.idles byte = true)
    (hasks : ¬s.asksData byte = true) :
    s.nextState byte = s.scancodeState byte ∧
      (s.state = .waitingResponsedata → s.back ≠ none) := by
  unfold idles at hidles
  unfold nextState
  rw [if_neg hasks]
  split at hidles
  next hdata =>
    rw [Bool.or_eq_true, not_or, Option.isNone_iff_eq_none] at hidles
    exact ⟨if_neg hidles.1, fun _ => hidles.2⟩
  next hdata =>
    rw [Bool.eq_false_iff.2 hasks, Bool.not_false, Bool.and_true] at hidles
    exact ⟨if_neg hidles, fun h => absurd h hdata⟩

/-- A byte which goes through the state machine is one more of its
scancode. -/
theorem keyBytes_scancodeState {released : Bool} {byte : BitVec 8}
    (hdefault : s.state ≠ .default)
    (hdata : s.state = .waitingResponsedata → s.back ≠ none)
    (hreleased : s.state = .waitingE1release1 → released = true)
    (hnext : s.scancodeState byte ≠ .default) :
    keyBytes (if s.state = .waitingE1ext1 then byte = 0xf0 else released)
      (s.scancodeState byte) = keyBytes released s.state + 1 := by
  unfold scancodeState at hnext ⊢
  by_cases hbyte : byte = 0xf0
  · cases hstate : s.state with
    | default => exact absurd hstate hdefault
    | waitingResponsedata =>
        rw [hstate] at hnext
        exact absurd (if_neg (hdata hstate)) hnext
    | waitingE1release1 => simp [keyBytes, hreleased hstate]
    | waitingE1ext2 => cases released <;> simp [keyBytes, hbyte]
    | _ => simp_all [keyBytes]
  · cases hstate : s.state with
    | default => exact absurd hstate hdefault
    | waitingResponsedata =>
        rw [hstate] at hnext
        exact absurd (if_neg (hdata hstate)) hnext
    | waitingE1release1 => simp [keyBytes, hreleased hstate]
    | _ => simp_all [keyBytes]

theorem scancodeState_release1 {byte : BitVec 8}
    (h : s.scancodeState byte = .waitingE1release1) :
    s.state = .waitingE1ext1 ∧ byte = 0xf0 := by
  unfold scancodeState at h
  cases hstate : s.state with
  | waitingE1ext1 =>
      rw [hstate] at h
      dsimp only at h
      split at h
      next hbyte => exact ⟨rfl, hbyte⟩
      next => cases h
  | default =>
      rw [hstate] at h
      dsimp only at h
      have hkey := keyBytes_firstState (by rw [h]; decide)
      rw [h] at hkey
      cases hkey
  | _ => grind

/-- The index is right for the state behind a byte. -/
theorem watch_counts (h : IndexCounts s q) (byte : BitVec 8)
    (hnext : s.nextState byte ≠ .default) :
    (if s.state = .default then 0 else s.nextKeyByteIndex) + 1 =
      keyBytes (s.watch q byte).released (s.nextState byte) +
        (s.watch q byte).superfluous := by
  unfold watch
  by_cases hdefault : s.state = .default
  · rw [if_pos hdefault, if_pos hdefault, nextState_first hdefault hnext]
    rfl
  · have hcounts := h.counts hdefault
    rw [if_neg hdefault, if_neg hdefault]
    by_cases hidles : s.idles byte = true
    · rw [if_pos hidles, nextState_idles hidles]
      dsimp only
      omega
    · by_cases hasks : s.asksData byte = true
      · rw [if_neg hidles, if_pos hasks, nextState_asksData hasks]
        show s.nextKeyByteIndex + 1 =
          1 + (q.superfluous + keyBytes q.released s.state)
        omega
      · obtain ⟨hscancode, hback⟩ := nextState_scancode hidles hasks
        rw [hscancode] at hnext ⊢
        have hkey := keyBytes_scancodeState hdefault hback h.released hnext
        rw [if_neg hidles, if_neg hasks]
        split at hkey
        next hext =>
          rw [if_pos hext]
          dsimp only
          omega
        next hext =>
          rw [if_neg hext]
          omega

theorem watch_released (h : IndexCounts s q) (byte : BitVec 8)
    (hnext : s.nextState byte = .waitingE1release1) :
    (s.watch q byte).released = true := by
  unfold watch
  by_cases hdefault : s.state = .default
  · have hkey := nextState_first hdefault (by rw [hnext]; decide)
    rw [hnext] at hkey
    cases hkey
  · rw [if_neg hdefault]
    by_cases hidles : s.idles byte = true
    · rw [if_pos hidles]
      exact h.released ((nextState_idles hidles).symm.trans hnext)
    · by_cases hasks : s.asksData byte = true
      · rw [nextState_asksData hasks] at hnext
        cases hnext
      · have hscancode := (nextState_scancode hidles hasks).1
        rw [hnext] at hscancode
        obtain ⟨hstate, hbyte⟩ := scancodeState_release1 hscancode.symm
        rw [if_neg hidles, if_neg hasks, if_pos hstate]
        exact decide_eq_true hbyte

/-- A byte is stored inside of the array. -/
def InArray (s : Kbdcontext) : Prop :=
  s.state ≠ .default → s.nextKeyByteIndex < 8

theorem IndexCounts.inArray_iff (h : IndexCounts s q) :
    s.InArray ↔ s.HasRoom q := by
  refine forall_congr' fun hstate => ?_
  have hcounts := h.counts hstate
  omega

theorem storeKeyByte_eq (hinside : s.InArray) (byte : BitVec 8) :
    ∃ t, s.storeKeyByte byte = .ok t ∧ t.toCommands = s.toCommands ∧
      t.state = s.state ∧ t.nextKeyByteIndex =
        (if s.state = .default then 0 else s.nextKeyByteIndex) + 1 ∧
      t.nextKeyByteIndex ≤ 8 := by
  have hlt : (if s.state = .default then 0 else s.nextKeyByteIndex) < 8 := by
    split
    next => omega
    next hstate => exact hinside hstate
  unfold storeKeyByte
  dsimp only
  rw [if_pos hlt]
  refine ⟨_, rfl, rfl, rfl, ?_, ?_⟩
  · dsimp only
    omega
  · dsimp only
    omega

/-- The handlers behind the stored byte lead to the next state. -/
theorem handlers_endsIn (hreport : Reportable t) (byte : BitVec 8)
    (putOk : Bool) :
    EndsIn t (t.nextState byte)
      (if byte = responseAck then t.ackReceived putOk
      else if byte = responseResend then t.resendReceived putOk
      else if byte = cmdEcho then t.echoReceived putOk
      else t.scancodeReceived byte putOk) := by
  unfold nextState asksData isResponse
  by_cases hack : byte = responseAck
  · rw [if_pos hack, hack]
    exact ackReceived_endsIn t putOk
  · by_cases hresend : byte = responseResend
    · rw [if_neg hack, if_pos hresend, hresend]
      exact resendReceived_endsIn t putOk
    · by_cases hecho : byte = cmdEcho
      · rw [if_neg hack, if_neg hresend, if_pos hecho, hecho]
        exact echoReceived_endsIn t putOk
      · rw [if_neg hack, if_neg hresend, if_neg hecho]
        simp only [hack, hresend, hecho, decide_false, Bool.false_and,
          Bool.or_self, Bool.false_eq_true, if_false]
        exact scancodeReceived_endsIn hreport byte putOk

/-- A byte which is stored leads to the next state. -/
theorem opBytereceived_endsIn (hinside : s.InArray) (byte : BitVec 8)
    (putOk : Bool) :
    ∃ t, t.nextKeyByteIndex =
        (if s.state = .default then 0 else s.nextKeyByteIndex) + 1 ∧
      t.nextKeyByteIndex ≤ 8 ∧
      EndsIn t (s.nextState byte) (s.opBytereceived byte putOk) := by
  obtain ⟨t, ht, hcommands, hstate, hindex, hbound⟩ :=
    storeKeyByte_eq hinside byte
  refine ⟨t, hindex, hbound, ?_⟩
  have hreport : Reportable t := ⟨by omega, hbound⟩
  have hnext : t.nextState byte = s.nextState byte := by
    unfold nextState asksData awaitsData scancodeState
    rw [hcommands, hstate]
  rw [← hnext, opBytereceived, ht, ok_bind]
  exact handlers_endsIn hreport byte putOk

theorem opBytereceived_harmless (hinside : s.InArray) (byte : BitVec 8)
    (putOk : Bool) : StopsHarmless (s.opBytereceived byte putOk) := by
  obtain ⟨_, _, _, hends⟩ := opBytereceived_endsIn hinside byte putOk
  exact hends.1

theorem opBytereceived_keepsCounts (h : IndexCounts s q)
    (hroom : s.HasRoom q) {byte : BitVec 8} {putOk : Bool} {s' : Kbdcontext}
    (hs' : s.opBytereceived byte putOk = .ok s') :
    IndexCounts s' (s.watch q byte) := by
  obtain ⟨t, hindex, hbound, hends⟩ :=
    opBytereceived_endsIn (h.inArray_iff.2 hroom) byte putOk
  obtain ⟨hafter, hstate'⟩ := hends.2 s' hs'
  constructor
  · intro hne
    rw [hafter, hindex, hstate']
    exact watch_counts h byte (hstate' ▸ hne)
  · intro hrelease
    exact watch_released h byte (hstate'.symm.trans hrelease)
  · rw [hafter]
    exact hbound

theorem opBytereceived_outOfBounds (hfull : ¬s.InArray) (byte : BitVec 8)
    (putOk : Bool) :
    s.opBytereceived byte putOk = .error .outOfBounds := by
  obtain ⟨hstate, hfull⟩ := Classical.not_imp.1 hfull
  have hstore : s.storeKeyByte byte = .error .outOfBounds := by
    unfold storeKeyByte
    dsimp only
    rw [if_neg hstate, if_neg hfull]
  rw [opBytereceived, hstore]
  rfl

end Kbdcontext

namespace Keyboard

variable {k k' : Keyboard} {a : Ps2Step}

/-- No step stores behind the array or fails to report. -/
def KeepsIndex (k : Keyboard) (a : Ps2Step) : Prop :=
  k.step a ≠ .error (.fault .outOfBounds) ∧
    k.step a ≠ .error (.fault (.assertion "false"))

/-- What has come, behind a step. -/
def watch (k : Keyboard) (q : Sequence) : Ps2Step → Sequence
  | .byteReceived byte _ => k.ctx.watch q byte
  | _ => q

/-- A byte outside of the default state finds few superfluous bytes in front of
it: six behind the first byte of a scancode, and one less for each further
byte of it. -/
def InTime (w : Keyboard × Sequence) : Ps2Step → Prop
  | .byteReceived _ _ => w.1.ctx.HasRoom w.2
  | _ => True

theorem orHalt_ok {α : Type} {x : Except Fault α} {a : α}
    (h : orHalt x = .ok a) : x = .ok a := by
  cases x with
  | ok b => simpa [orHalt] using h
  | error e => cases h

theorem orHalt_harmless {α : Type} {x : Except Fault α}
    (hx : StopsHarmless x) :
    orHalt x ≠ .error (.fault .outOfBounds) ∧
      orHalt x ≠ .error (.fault (.assertion "false")) := by
  cases x with
  | ok a => exact ⟨nofun, nofun⟩
  | error e =>
      obtain ⟨hbounds, hfalse⟩ := hx e rfl
      constructor
      · intro heq
        cases heq
        exact hbounds rfl
      · intro heq
        cases heq
        exact hfalse rfl

theorem test_harmless (k : Keyboard) (cmdbyte : BitVec 8)
    (noretry async resultOut : Bool) :
    StopsHarmless (k.test cmdbyte noretry async resultOut) := by
  refine StopsHarmless.bind ?_ fun _ => stopsHarmless_ok _
  intro e he
  rw [cAssert_error he]
  exact ⟨nofun, by decide⟩

theorem insert_harmless (k : Keyboard) (call : ℕ) (r : Request)
    (isqueueempty : Bool) :
    StopsHarmless (k.insert call r isqueueempty) :=
  (Commands.insertFront_harmless _ call).bind fun _ => stopsHarmless_ok _

theorem poll_harmless (k : Keyboard) (call : ℕ) (r : Request) :
    StopsHarmless (k.poll call r) := by
  refine (Commands.cmdAt_harmless _ call).bind fun x => ?_
  split
  next => exact stopsHarmless_ok _
  next => exact stopsHarmless_ok _

/-- A step of a request. -/
def IsRequest : Ps2Step → Prop
  | .byteReceived _ _ => False
  | _ => True

theorem request_keepsIndex (ha : IsRequest a) : KeepsIndex k a := by
  unfold KeepsIndex
  cases a with
  | byteReceived byte putOk => exact ha.elim
  | test cmdbyte noretry async resultOut =>
      exact orHalt_harmless (test_harmless k cmdbyte noretry async resultOut)
  | insert call =>
      simp only [step]
      split
      next r _ =>
        split
        next e _ => exact orHalt_harmless (insert_harmless k call r e)
        next => exact ⟨nofun, nofun⟩
      next => exact ⟨nofun, nofun⟩
  | send call putOk =>
      simp only [step]
      split
      next r _ => split <;> exact ⟨nofun, nofun⟩
      next => exact ⟨nofun, nofun⟩
  | poll call =>
      simp only [step]
      split
      next r _ =>
        split
        next => exact orHalt_harmless (poll_harmless k call r)
        next => exact ⟨nofun, nofun⟩
      next => exact ⟨nofun, nofun⟩

theorem request_ctx (ha : IsRequest a) (hstep : k.step a = .ok k') :
    ∃ c, k'.ctx = k.ctx.withCommands c := by
  cases a with
  | byteReceived byte putOk => exact ha.elim
  | test cmdbyte noretry async resultOut =>
      obtain ⟨_, _, htest⟩ := bind_eq_ok (orHalt_ok hstep)
      cases htest
      exact ⟨_, rfl⟩
  | insert call =>
      simp only [step] at hstep
      split at hstep
      next r _ =>
        split at hstep
        next e _ =>
          obtain ⟨_, _, hinsert⟩ := bind_eq_ok (orHalt_ok hstep)
          cases hinsert
          exact ⟨_, rfl⟩
        next => cases hstep
      next => cases hstep
  | send call putOk =>
      simp only [step] at hstep
      split at hstep
      next r _ =>
        split at hstep
        next =>
          cases hstep
          cases putOk with
          | true => exact ⟨_, rfl⟩
          | false => exact ⟨k.ctx.toCommands, rfl⟩
        next => cases hstep
      next => cases hstep
  | poll call =>
      simp only [step] at hstep
      split at hstep
      next r _ =>
        split at hstep
        next =>
          obtain ⟨x, _, hpoll⟩ := bind_eq_ok (orHalt_ok hstep)
          split at hpoll
          next =>
            cases hpoll
            exact ⟨k.ctx.toCommands, rfl⟩
          next =>
            cases hpoll
            exact ⟨_, rfl⟩
        next => cases hstep
      next => cases hstep

theorem byteReceived_ok {byte : BitVec 8} {putOk : Bool}
    (hstep : k.step (.byteReceived byte putOk) = .ok k') :
    ∃ s, k.ctx.opBytereceived byte putOk = .ok s ∧
      k' = { k with ctx := s } := by
  obtain ⟨s, hs, hk'⟩ := bind_eq_ok (orHalt_ok hstep)
  cases hk'
  exact ⟨s, hs, rfl⟩

theorem step_indexCounts {q : Sequence} (h : k.ctx.IndexCounts q)
    (hgood : InTime (k, q) a) (hstep : k.step a = .ok k') :
    k'.ctx.IndexCounts (k.watch q a) := by
  have hrequest : IsRequest a → k'.ctx.IndexCounts q := by
    intro ha
    obtain ⟨c, hc⟩ := request_ctx ha hstep
    rw [hc]
    exact ⟨h.counts, h.released, h.bound⟩
  cases a with
  | byteReceived byte putOk =>
      obtain ⟨s, hs, rfl⟩ := byteReceived_ok hstep
      exact Kbdcontext.opBytereceived_keepsCounts h hgood hs
  | test _ _ _ _ => exact hrequest trivial
  | insert _ => exact hrequest trivial
  | send _ _ => exact hrequest trivial
  | poll _ => exact hrequest trivial

/-- A step stays within the array and reports exactly when it is not a byte
which finds the array full. -/
theorem keepsIndex_iff_inArray (a : Ps2Step) :
    KeepsIndex k a ↔ (¬IsRequest a → k.ctx.InArray) := by
  by_cases ha : IsRequest a
  · exact iff_of_true (request_keepsIndex ha) (fun h => absurd ha h)
  · rw [forall_prop_of_true ha]
    cases a with
    | byteReceived byte putOk =>
        constructor
        · intro hkeeps
          by_contra hfull
          apply hkeeps.1
          simp only [step]
          rw [Kbdcontext.opBytereceived_outOfBounds hfull]
          rfl
        · intro hinside
          refine orHalt_harmless (StopsHarmless.bind ?_ fun s =>
            stopsHarmless_ok _)
          exact Kbdcontext.opBytereceived_harmless hinside byte putOk
    | test _ _ _ _ => exact absurd trivial ha
    | insert _ => exact absurd trivial ha
    | send _ _ => exact absurd trivial ha
    | poll _ => exact absurd trivial ha

theorem keepsIndex_iff {q : Sequence} (h : k.ctx.IndexCounts q)
    (a : Ps2Step) : KeepsIndex k a ↔ InTime (k, q) a := by
  rw [keepsIndex_iff_inArray]
  cases a with
  | byteReceived byte putOk =>
      rw [forall_prop_of_true (show ¬IsRequest _ from id)]
      exact h.inArray_iff
  | test _ _ _ _ => exact iff_of_true (fun h => absurd trivial h) trivial
  | insert _ => exact iff_of_true (fun h => absurd trivial h) trivial
  | send _ _ => exact iff_of_true (fun h => absurd trivial h) trivial
  | poll _ => exact iff_of_true (fun h => absurd trivial h) trivial

/-- In every run of received bytes and requests, no byte is stored behind the
array and every report finds its bytes, exactly when every byte outside of the
default state finds few superfluous bytes in front of it. -/
theorem byteRun_keepsIndex_iff (steps : List Ps2Step) :
    TransitionRun.Admitted KeepsIndex step initial steps ↔
      TransitionRun.Admitted InTime (TransitionRun.watched step watch)
        (initial, ⟨false, 0⟩) steps := by
  rw [← TransitionRun.admitted_watched_iff watch]
  have hiff : ∀ (w : Keyboard × Sequence) a, w.1.ctx.IndexCounts w.2 →
      (KeepsIndex w.1 a ↔ InTime w a) := fun _ a h => keepsIndex_iff h a
  have hstep : ∀ (w : Keyboard × Sequence) a w', w.1.ctx.IndexCounts w.2 →
      InTime w a → TransitionRun.watched step watch w a = .ok w' →
        w'.1.ctx.IndexCounts w'.2 := by
    rintro ⟨k, q⟩ a ⟨k', q'⟩ h hgood hw
    obtain ⟨hk, rfl⟩ := TransitionRun.watched_ok.1 hw
    exact step_indexCounts h hgood hk
  have hinitial : initial.ctx.IndexCounts ⟨false, 0⟩ :=
    ⟨fun hne => absurd rfl hne, nofun, Nat.zero_le _⟩
  exact TransitionRun.admitted_iff hiff hstep hinitial steps

/-- The prefix of an extended key, and eight acknowledgements which nobody has
asked for. -/
theorem eighth_acknowledgement_overflows :
    ¬ ∀ steps, TransitionRun.Admitted KeepsIndex step initial steps := by
  intro hall
  have hrun := hall (.byteReceived 0xe0 true ::
    List.replicate 8 (.byteReceived responseAck true))
  have hlast := ((((((((hrun.2 _ rfl).2 _ rfl).2 _ rfl).2 _ rfl).2 _ rfl).2 _
    rfl).2 _ rfl).2 _ rfl).1
  exact hlast.1 rfl

end Keyboard

end Ps2Kbd
end Yjkos
