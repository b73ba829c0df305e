import Yjkos.Ps2Kbd

/-!
# Decoding scancode set 2

The keys which are pressed and released come out of the bytes which the
keyboard sends for them.  The commands of the keyboard play no part in it: they
may change at any time between two bytes.
-/

namespace Yjkos
namespace Ps2Kbd

open Kbd (Key KeyCall)

/-- What is done to a key of the keyboard. -/
inductive ScanEvent where
  | plain (down : Bool) (entry : { e // e ∈ keymapDefault })
  | extended (down : Bool) (entry : { e // e ∈ keymapE0 })
  | printScreen (down : Bool)
  | pause

def keyCall (down : Bool) (key : Key) : KeyCall :=
  if down then .pressed key else .released key

namespace ScanEvent

/-- The bytes which the keyboard sends. -/
def bytes : ScanEvent → List (BitVec 8)
  | plain true entry => [entry.1.1]
  | plain false entry => [0xf0, entry.1.1]
  | extended true entry => [0xe0, entry.1.1]
  | extended false entry => [0xe0, 0xf0, entry.1.1]
  | printScreen true => [0xe0, 0x12, 0xe0, 0x7c]
  | printScreen false => [0xe0, 0xf0, 0x7c, 0xe0, 0xf0, 0x12]
  | pause => [0xe1, 0x14, 0x77, 0xe1, 0xf0, 0x14, 0xf0, 0x77]

/-- The calls which are to be made. -/
def calls : ScanEvent → List KeyCall
  | plain down entry => [keyCall down entry.1.2]
  | extended down entry => [keyCall down entry.1.2]
  | printScreen down => [keyCall down .printScreen]
  | pause => [.pressed .pause, .released .pause]

/-- Whether Print Screen is down behind the event. -/
def printDown (down : Bool) : ScanEvent → Bool
  | printScreen next => next
  | _ => down

/-- Print Screen is pressed when it is up and released when it is down. -/
def Alternates (down : Bool) : ScanEvent → Prop
  | printScreen next => next = !down
  | _ => True

end ScanEvent

/-- The events of Print Screen alternate from the given one on. -/
def PrintsAlternate : Bool → List ScanEvent → Prop
  | _, [] => True
  | down, e :: rest => e.Alternates down ∧ PrintsAlternate (e.printDown down) rest

/-- A byte which arrives, or a change of the commands in between. -/
inductive Arrival where
  | byte (byte : BitVec 8) (putOk : Bool)
  | commands (c : Commands)

def Arrival.byte? : Arrival → Option (BitVec 8)
  | byte b _ => some b
  | commands _ => none

namespace Kbdcontext

def arrive (s : Kbdcontext) : Arrival → Except Fault Kbdcontext
  | .byte byte putOk => s.opBytereceived byte putOk
  | .commands c => .ok (s.withCommands c)

/-- Bytes without anything in between. -/
def scan (s : Kbdcontext) (bytes : List (BitVec 8)) :
    Except Fault Kbdcontext :=
  bytes.foldlM (fun s byte => s.opBytereceived byte true) s

/-- A byte which is no answer to a command. -/
def IsScancode (byte : BitVec 8) : Prop :=
  byte ≠ responseAck ∧ byte ≠ responseResend ∧ byte ≠ cmdEcho

section Commands

variable (s : Kbdcontext) (c : Commands)

theorem withCommands_self : s.withCommands s.toCommands = s := rfl

theorem reportBadScancode_withCommands :
    (s.withCommands c).reportBadScancode =
      s.reportBadScancode.map (·.withCommands c) := by
  unfold reportBadScancode
  show (if 1 ≤ s.nextKeyByteIndex ∧ s.nextKeyByteIndex ≤ 8 then _ else _) = _
  split <;> rfl

theorem keyPressed_withCommands (key : Key) :
    (s.withCommands c).keyPressed key =
      (s.keyPressed key).map (·.withCommands c) := by
  unfold keyPressed
  split
  next => exact reportBadScancode_withCommands s c
  next => rfl

theorem keyReleased_withCommands (key : Key) :
    (s.withCommands c).keyReleased key =
      (s.keyReleased key).map (·.withCommands c) := by
  unfold keyReleased
  split
  next => exact reportBadScancode_withCommands s c
  next => rfl

theorem ite_withCommands {b : Prop} [Decidable b]
    {x y x' y' : Except Fault Kbdcontext}
    (hx : x' = x.map (·.withCommands c)) (hy : y' = y.map (·.withCommands c)) :
    (if b then x' else y') = (if b then x else y).map (·.withCommands c) := by
  split
  next => exact hx
  next => exact hy

theorem checkPrintscreenPress_withCommands :
    (s.withCommands c).checkPrintscreenPress =
      s.checkPrintscreenPress.map (·.withCommands c) :=
  ite_withCommands c (keyPressed_withCommands s c _) rfl

theorem checkPrintscreenRelease_withCommands :
    (s.withCommands c).checkPrintscreenRelease =
      s.checkPrintscreenRelease.map (·.withCommands c) :=
  ite_withCommands c (keyReleased_withCommands s c _) rfl

theorem checkPausePress_withCommands :
    (s.withCommands c).checkPausePress =
      s.checkPausePress.map (·.withCommands c) :=
  ite_withCommands c (keyPressed_withCommands s c _) rfl

theorem checkPauseRelease_withCommands :
    (s.withCommands c).checkPauseRelease =
      s.checkPauseRelease.map (·.withCommands c) :=
  ite_withCommands c (keyReleased_withCommands s c _) rfl

theorem e0ExtReceived_withCommands (byte : BitVec 8) :
    (s.withCommands c).e0ExtReceived byte =
      (s.e0ExtReceived byte).map (·.withCommands c) := by
  unfold e0ExtReceived
  dsimp only
  split
  next => rfl
  next =>
    split
    next =>
      exact checkPrintscreenPress_withCommands
        { s with
          state := .default
          flags := { s.flags with lshift := true } } c
    next =>
      split
      next =>
        exact checkPrintscreenPress_withCommands
          { s with
            state := .default
            flags := { s.flags with numpadMul := true } } c
      next =>
        exact keyPressed_withCommands { s with state := .default } c _

theorem e0ReleaseReceived_withCommands (byte : BitVec 8) :
    (s.withCommands c).e0ReleaseReceived byte =
      (s.e0ReleaseReceived byte).map (·.withCommands c) := by
  unfold e0ReleaseReceived
  dsimp only
  split
  next =>
    exact checkPrintscreenRelease_withCommands
      { s with
        state := .default
        flags := { s.flags with lshift := false } } c
  next =>
    split
    next =>
      exact checkPrintscreenRelease_withCommands
        { s with
          state := .default
          flags := { s.flags with numpadMul := false } } c
    next =>
      exact keyReleased_withCommands { s with state := .default } c _

theorem e1Ext1Received_withCommands (byte : BitVec 8) :
    (s.withCommands c).e1Ext1Received byte =
      (s.e1Ext1Received byte).withCommands c := by
  unfold e1Ext1Received
  (repeat' split) <;> rfl

theorem e1Release1Received_withCommands (byte : BitVec 8) :
    (s.withCommands c).e1Release1Received byte =
      (s.e1Release1Received byte).withCommands c := by
  unfold e1Release1Received
  (repeat' split) <;> rfl

theorem e1Ext2Received_withCommands (byte : BitVec 8) :
    (s.withCommands c).e1Ext2Received byte =
      (s.e1Ext2Received byte).map (·.withCommands c) := by
  unfold e1Ext2Received
  dsimp only
  split
  next => rfl
  next =>
    split
    next =>
      exact checkPausePress_withCommands
        { s with
          state := .default
          flags := { s.flags with lctrl := true } } c
    next =>
      split
      next =>
        exact checkPausePress_withCommands
          { s with
            state := .default
            flags := { s.flags with numlock := true } } c
      next =>
        exact reportBadScancode_withCommands { s with state := .default } c

theorem e1Release2Received_withCommands (byte : BitVec 8) :
    (s.withCommands c).e1Release2Received byte =
      (s.e1Release2Received byte).map (·.withCommands c) := by
  unfold e1Release2Received
  dsimp only
  split
  next =>
    exact checkPauseRelease_withCommands
      { s with
        state := .default
        flags := { s.flags with lctrl := false } } c
  next =>
    split
    next =>
      exact checkPauseRelease_withCommands
        { s with
          state := .default
          flags := { s.flags with numlock := false } } c
    next =>
      exact reportBadScancode_withCommands { s with state := .default } c

theorem scancodeFirstByteReceived_withCommands (byte : BitVec 8) :
    (s.withCommands c).scancodeFirstByteReceived byte =
      (s.scancodeFirstByteReceived byte).map (·.withCommands c) :=
  ite_withCommands c rfl <| ite_withCommands c rfl <|
    ite_withCommands c rfl (keyPressed_withCommands s c _)

/-- Away from the state which waits for an answer, neither the commands nor
the port have a part in the `switch`. -/
theorem scancodeReceived_withCommands
    (hstate : s.state ≠ .waitingResponsedata) (byte : BitVec 8)
    (putOk putOk' : Bool) :
    (s.withCommands c).scancodeReceived byte putOk =
      (s.scancodeReceived byte putOk').map (·.withCommands c) := by
  have hsame : (s.withCommands c).state = s.state := rfl
  unfold scancodeReceived
  rw [hsame]
  cases hs : s.state with
  | default => exact scancodeFirstByteReceived_withCommands s c byte
  | waitingResponsedata => exact absurd hs hstate
  | waitingE0ext => exact e0ExtReceived_withCommands s c byte
  | waitingE1ext1 =>
      exact congrArg Except.ok (e1Ext1Received_withCommands s c byte)
  | waitingE1ext2 => exact e1Ext2Received_withCommands s c byte
  | waitingNormalrelease =>
      exact keyReleased_withCommands { s with state := .default } c _
  | waitingE0release => exact e0ReleaseReceived_withCommands s c byte
  | waitingE1release1 =>
      exact congrArg Except.ok (e1Release1Received_withCommands s c byte)
  | waitingE1release2 => exact e1Release2Received_withCommands s c byte

/-- A stored byte changes nothing of what is decoded. -/
structure Stored (s t : Kbdcontext) : Prop where
  commands : t.toCommands = s.toCommands
  state : t.state = s.state
  flags : t.flags = s.flags
  kbdCalls : t.kbdCalls = s.kbdCalls
  badScancodes : t.badScancodes = s.badScancodes

theorem storeKeyByte_stored {t : Kbdcontext} {byte : BitVec 8}
    (h : s.storeKeyByte byte = .ok t) : Stored s t := by
  unfold storeKeyByte at h
  dsimp only at h
  generalize (if s.state = .default then 0 else s.nextKeyByteIndex) = i at h
  split at h
  next =>
    cases h
    exact ⟨rfl, rfl, rfl, rfl, rfl⟩
  next => cases h

/-- A scancode is stored and goes through the `switch`. -/
theorem opBytereceived_scancode {byte : BitVec 8} (hbyte : IsScancode byte)
    (putOk : Bool) :
    s.opBytereceived byte putOk = (do
      let t ← s.storeKeyByte byte
      t.scancodeReceived byte putOk) := by
  obtain ⟨hack, hresend, hecho⟩ := hbyte
  simp only [opBytereceived, if_neg hack, if_neg hresend, if_neg hecho]

theorem opBytereceived_withCommands
    (hstate : s.state ≠ .waitingResponsedata) {byte : BitVec 8}
    (hbyte : IsScancode byte) (putOk putOk' : Bool) :
    (s.withCommands c).opBytereceived byte putOk =
      (s.opBytereceived byte putOk').map (·.withCommands c) := by
  have hsame : (s.withCommands c).storeKeyByte byte =
      (s.storeKeyByte byte).map (·.withCommands c) :=
    ite_withCommands c rfl rfl
  rw [opBytereceived_scancode _ hbyte, opBytereceived_scancode _ hbyte, hsame]
  cases hstore : s.storeKeyByte byte with
  | error e => rfl
  | ok t =>
      have hsame := (storeKeyByte_stored s hstore).state
      exact scancodeReceived_withCommands t c (hsame ▸ hstate) byte putOk
        putOk'

end Commands

/-- A result which does not wait for an answer.  Only a report stops. -/
structure AwaitsNone (x : Except Fault Kbdcontext) : Prop where
  state : ∀ s', x = .ok s' → s'.state ≠ .waitingResponsedata
  stops : ∀ e, x = .error e → e = .assertion "false"

section Answer

variable {s : Kbdcontext}

theorem awaitsNone_ok (h : s.state ≠ .waitingResponsedata) :
    AwaitsNone (.ok s) := by
  refine ⟨?_, nofun⟩
  rintro s' heq
  cases heq
  exact h

theorem awaitsNone_ite {b : Prop} [Decidable b]
    {x y : Except Fault Kbdcontext} (hx : AwaitsNone x) (hy : AwaitsNone y) :
    AwaitsNone (if b then x else y) := by
  split
  next => exact hx
  next => exact hy

theorem reportBadScancode_awaitsNone (h : s.state ≠ .waitingResponsedata) :
    AwaitsNone s.reportBadScancode := by
  refine awaitsNone_ite (awaitsNone_ok h) ⟨nofun, ?_⟩
  rintro e heq
  cases heq
  rfl

theorem keyPressed_awaitsNone (h : s.state ≠ .waitingResponsedata)
    (key : Key) : AwaitsNone (s.keyPressed key) :=
  awaitsNone_ite (reportBadScancode_awaitsNone h) (awaitsNone_ok h)

theorem keyReleased_awaitsNone (h : s.state ≠ .waitingResponsedata)
    (key : Key) : AwaitsNone (s.keyReleased key) :=
  awaitsNone_ite (reportBadScancode_awaitsNone h) (awaitsNone_ok h)

theorem check_awaitsNone (h : s.state ≠ .waitingResponsedata) :
    AwaitsNone s.checkPrintscreenPress ∧
      AwaitsNone s.checkPrintscreenRelease ∧
      AwaitsNone s.checkPausePress ∧ AwaitsNone s.checkPauseRelease :=
  ⟨awaitsNone_ite (keyPressed_awaitsNone h _) (awaitsNone_ok h),
    awaitsNone_ite (keyReleased_awaitsNone h _) (awaitsNone_ok h),
    awaitsNone_ite (keyPressed_awaitsNone h _) (awaitsNone_ok h),
    awaitsNone_ite (keyReleased_awaitsNone h _) (awaitsNone_ok h)⟩

theorem scancodeReceived_awaitsNone (h : s.state ≠ .waitingResponsedata)
    (byte : BitVec 8) (putOk : Bool) :
    AwaitsNone (s.scancodeReceived byte putOk) := by
  unfold scancodeReceived
  cases hs : s.state with
  | default =>
      refine awaitsNone_ite (awaitsNone_ok nofun) ?_
      refine awaitsNone_ite (awaitsNone_ok nofun) ?_
      exact awaitsNone_ite (awaitsNone_ok nofun) (keyPressed_awaitsNone h _)
  | waitingResponsedata => exact absurd hs h
  | waitingE0ext =>
      refine awaitsNone_ite (awaitsNone_ok nofun) ?_
      refine awaitsNone_ite (check_awaitsNone (by nofun)).1 ?_
      refine awaitsNone_ite (check_awaitsNone (by nofun)).1 ?_
      exact keyPressed_awaitsNone (by nofun) _
  | waitingE1ext1 =>
      refine awaitsNone_ok ?_
      unfold e1Ext1Received
      (repeat' split) <;> exact nofun
  | waitingE1ext2 =>
      refine awaitsNone_ite (awaitsNone_ok nofun) ?_
      refine awaitsNone_ite (check_awaitsNone (by nofun)).2.2.1 ?_
      refine awaitsNone_ite (check_awaitsNone (by nofun)).2.2.1 ?_
      exact reportBadScancode_awaitsNone (by nofun)
  | waitingNormalrelease => exact keyReleased_awaitsNone (by nofun) _
  | waitingE0release =>
      refine awaitsNone_ite (check_awaitsNone (by nofun)).2.1 ?_
      refine awaitsNone_ite (check_awaitsNone (by nofun)).2.1 ?_
      exact keyReleased_awaitsNone (by nofun) _
  | waitingE1release1 =>
      refine awaitsNone_ok ?_
      unfold e1Release1Received
      (repeat' split) <;> exact nofun
  | waitingE1release2 =>
      refine awaitsNone_ite (check_awaitsNone (by nofun)).2.2.2 ?_
      refine awaitsNone_ite (check_awaitsNone (by nofun)).2.2.2 ?_
      exact reportBadScancode_awaitsNone (by nofun)

theorem opBytereceived_state (h : s.state ≠ .waitingResponsedata)
    {byte : BitVec 8} (hbyte : IsScancode byte) {putOk : Bool}
    {s' : Kbdcontext} (hs' : s.opBytereceived byte putOk = .ok s') :
    s'.state ≠ .waitingResponsedata := by
  rw [opBytereceived_scancode _ hbyte] at hs'
  obtain ⟨t, ht, hs'⟩ := bind_eq_ok hs'
  have hstate := (storeKeyByte_stored s ht).state
  exact (scancodeReceived_awaitsNone (hstate ▸ h) byte putOk).state s' hs'

end Answer

theorem scan_cons (s : Kbdcontext) (byte : BitVec 8)
    (rest : List (BitVec 8)) :
    s.scan (byte :: rest) = (do
      let s ← s.opBytereceived byte true
      s.scan rest) := List.foldlM_cons

theorem scan_append (s : Kbdcontext) (first rest : List (BitVec 8)) :
    s.scan (first ++ rest) = (do
      let s ← s.scan first
      s.scan rest) := List.foldlM_append

theorem scan_withCommands {s s' : Kbdcontext}
    (hstate : s.state ≠ .waitingResponsedata) {bytes : List (BitVec 8)}
    (hbytes : ∀ byte ∈ bytes, IsScancode byte) (hscan : s.scan bytes = .ok s')
    (c : Commands) : (s.withCommands c).scan bytes = .ok (s'.withCommands c) := by
  induction bytes generalizing s with
  | nil =>
      cases hscan
      rfl
  | cons byte rest ih =>
      obtain ⟨hbyte, hrest⟩ := List.forall_mem_cons.1 hbytes
      rw [scan_cons] at hscan
      obtain ⟨t, ht, hscan⟩ := bind_eq_ok hscan
      have htstate := opBytereceived_state hstate hbyte ht
      rw [scan_cons, opBytereceived_withCommands s c hstate hbyte true true, ht]
      exact ih htstate hrest hscan

/-- What the bytes alone lead to, they lead to whatever the commands do in
between. -/
theorem arrivals_eq_scan {s s' : Kbdcontext}
    (hstate : s.state ≠ .waitingResponsedata) {arrivals : List Arrival}
    (hbytes : ∀ byte ∈ arrivals.filterMap Arrival.byte?, IsScancode byte)
    (hscan : s.scan (arrivals.filterMap Arrival.byte?) = .ok s') :
    ∃ c, arrivals.foldlM arrive s = .ok (s'.withCommands c) := by
  induction arrivals generalizing s s' with
  | nil =>
      cases hscan
      exact ⟨s.toCommands, rfl⟩
  | cons arrival rest ih =>
      cases arrival with
      | commands c =>
          have hscan' := scan_withCommands hstate hbytes hscan c
          obtain ⟨c', hc'⟩ := ih (s := s.withCommands c) hstate hbytes hscan'
          exact ⟨c', hc'⟩
      | byte b putOk =>
          have hlist : (Arrival.byte b putOk :: rest).filterMap Arrival.byte? =
              b :: rest.filterMap Arrival.byte? := rfl
          rw [hlist] at hbytes hscan
          obtain ⟨hbyte, hrest⟩ := List.forall_mem_cons.1 hbytes
          rw [scan_cons] at hscan
          obtain ⟨t, ht, hscan⟩ := bind_eq_ok hscan
          have htstate := opBytereceived_state hstate hbyte ht
          have hput : s.opBytereceived b putOk =
              .ok (t.withCommands s.toCommands) := by
            have hsame := opBytereceived_withCommands s s.toCommands hstate
              hbyte putOk true
            rw [ht] at hsame
            exact hsame
          have hscan' := scan_withCommands htstate hrest hscan s.toCommands
          obtain ⟨c, hc⟩ :=
            ih (s := t.withCommands s.toCommands) htstate hrest hscan'
          refine ⟨c, ?_⟩
          rw [List.foldlM_cons]
          show (s.opBytereceived b putOk >>= _) = _
          rw [hput]
          exact hc

theorem keymapDefault_entry : ∀ e ∈ keymapDefault,
    keyOf keymapDefault e.1 = e.2 ∧ e.2 ≠ .invalid ∧ IsScancode e.1 ∧
      e.1 ≠ 0xe0#8 ∧ e.1 ≠ 0xe1#8 ∧ e.1 ≠ 0xf0#8 := by
  unfold IsScancode
  decide

theorem keymapE0_entry : ∀ e ∈ keymapE0,
    keyOf keymapE0 e.1 = e.2 ∧ e.2 ≠ .invalid ∧ IsScancode e.1 ∧
      e.1 ≠ 0xf0#8 ∧ e.1 ≠ 0x12#8 ∧ e.1 ≠ 0x7c#8 := by
  unfold IsScancode
  decide

/-- The state of a keyboard as far as it decodes.  At most `n` bytes of the
sequence are stored. -/
structure Scans (s : Kbdcontext) (state : InputState) (flags : FakeFlags)
    (calls : List KeyCall) (bad : List (List (BitVec 8))) (n : ℕ) : Prop where
  state : s.state = state
  flags : s.flags = flags
  kbdCalls : s.kbdCalls = calls
  badScancodes : s.badScancodes = bad
  index : s.state ≠ .default → s.nextKeyByteIndex ≤ n

/-- Bytes which lead from one state to another, with the calls of theirs. -/
def Leads (state : InputState) (flags : FakeFlags) (bytes : List (BitVec 8))
    (state' : InputState) (flags' : FakeFlags) (new : List KeyCall) : Prop :=
  ∀ s calls bad n, Scans s state flags calls bad n → n + bytes.length ≤ 8 →
    ∃ s', s.scan bytes = .ok s' ∧
      Scans s' state' flags' (calls ++ new) bad (n + bytes.length)

section Leads

variable {st st' st'' : InputState} {fl fl' fl'' : FakeFlags}
  {bytes bytes' : List (BitVec 8)} {new new' : List KeyCall}

theorem Leads.append (h : Leads st fl bytes st' fl' new)
    (h' : Leads st' fl' bytes' st'' fl'' new') :
    Leads st fl (bytes ++ bytes') st'' fl'' (new ++ new') := by
  intro s calls bad n hs hn
  rw [List.length_append] at hn
  obtain ⟨t, ht, hts⟩ := h s calls bad n hs (by omega)
  obtain ⟨u, hu, hus⟩ := h' t _ bad _ hts (by omega)
  refine ⟨u, ?_, ?_⟩
  · rw [scan_append, ht]
    exact hu
  · rw [List.length_append, ← Nat.add_assoc, ← List.append_assoc]
    exact hus

/-- One byte leads to where the `switch` goes with it. -/
theorem leads_byte {byte : BitVec 8} (hbyte : IsScancode byte)
    (hswitch : ∀ t : Kbdcontext,
      { t with state := st, flags := fl }.scancodeReceived byte true =
        .ok { t with
          state := st', flags := fl', kbdCalls := t.kbdCalls ++ new }) :
    Leads st fl [byte] st' fl' new := by
  intro s calls bad n hs hn
  have hn : n + 1 ≤ 8 := hn
  have hroom : (if s.state = .default then 0 else s.nextKeyByteIndex) ≤ n := by
    split
    next => exact Nat.zero_le n
    next hne => exact hs.index hne
  obtain ⟨t, ht, hindex⟩ : ∃ t, s.storeKeyByte byte = .ok t ∧
      t.nextKeyByteIndex ≤ n + 1 := by
    unfold storeKeyByte
    dsimp only
    generalize (if s.state = .default then 0 else s.nextKeyByteIndex) = i
      at hroom
    rw [if_pos (by omega)]
    refine ⟨_, rfl, ?_⟩
    show (i + 1) % 256 ≤ n + 1
    omega
  have hsame := storeKeyByte_stored s ht
  have hgoes := hswitch t
  rw [← hs.state, ← hs.flags, ← hsame.state, ← hsame.flags] at hgoes
  refine ⟨{ t with
    state := st', flags := fl', kbdCalls := t.kbdCalls ++ new }, ?_, rfl, rfl,
    ?_, ?_, fun _ => hindex⟩
  · rw [scan_cons, opBytereceived_scancode s hbyte, ht, ok_bind, hgoes]
    rfl
  · show t.kbdCalls ++ new = calls ++ new
    rw [hsame.kbdCalls, hs.kbdCalls]
  · exact hsame.badScancodes.trans hs.badScancodes

end Leads

section Events

variable (fl : FakeFlags)

theorem isScancode_prefix : IsScancode 0xe0#8 ∧ IsScancode 0xe1#8 ∧
    IsScancode 0xf0#8 ∧ IsScancode 0x12#8 ∧ IsScancode 0x7c#8 ∧
    IsScancode 0x14#8 ∧ IsScancode 0x77#8 := by
  unfold IsScancode
  decide

theorem leads_e0 : Leads .default fl [0xe0] .waitingE0ext fl [] :=
  leads_byte isScancode_prefix.1 fun t => by
    simp [scancodeReceived, scancodeFirstByteReceived]

theorem leads_e1 : Leads .default fl [0xe1] .waitingE1ext1 fl [] :=
  leads_byte isScancode_prefix.2.1 fun t => by
    simp [scancodeReceived, scancodeFirstByteReceived]

theorem leads_f0 : Leads .default fl [0xf0] .waitingNormalrelease fl [] :=
  leads_byte isScancode_prefix.2.2.1 fun t => by
    simp [scancodeReceived, scancodeFirstByteReceived]

theorem leads_e0_f0 : Leads .waitingE0ext fl [0xf0] .waitingE0release fl [] :=
  leads_byte isScancode_prefix.2.2.1 fun t => by
    simp [scancodeReceived, e0ExtReceived]

theorem leads_plain {e : BitVec 8 × Key} (he : e ∈ keymapDefault)
    (down : Bool) :
    Leads (if down then .default else .waitingNormalrelease) fl [e.1]
      .default fl [keyCall down e.2] := by
  obtain ⟨hkey, hvalid, hscan, he0, he1, hf0⟩ := keymapDefault_entry e he
  refine leads_byte hscan fun t => ?_
  cases down with
  | true =>
      simp [scancodeReceived, scancodeFirstByteReceived, keyPressed, he0, he1,
        hf0, hkey, hvalid, keyCall]
  | false =>
      simp [scancodeReceived, normalReleaseReceived, keyReleased, hkey, hvalid,
        keyCall]

theorem leads_extended {e : BitVec 8 × Key} (he : e ∈ keymapE0)
    (down : Bool) :
    Leads (if down then .waitingE0ext else .waitingE0release) fl [e.1]
      .default fl [keyCall down e.2] := by
  obtain ⟨hkey, hvalid, hscan, hf0, h12, h7c⟩ := keymapE0_entry e he
  refine leads_byte hscan fun t => ?_
  cases down with
  | true =>
      simp [scancodeReceived, e0ExtReceived, keyPressed, hf0, h12, h7c, hkey,
        hvalid, keyCall]
  | false =>
      simp [scancodeReceived, e0ReleaseReceived, keyReleased, h12, h7c, hkey,
        hvalid, keyCall]

theorem leads_printScreen_press :
    Leads .default ⟨false, false, false, false⟩ [0xe0, 0x12, 0xe0, 0x7c]
      .default ⟨true, true, false, false⟩ [.pressed .printScreen] := by
  have hshift : Leads .waitingE0ext ⟨false, false, false, false⟩ [0x12]
      .default ⟨true, false, false, false⟩ [] :=
    leads_byte isScancode_prefix.2.2.2.1 fun t => by
      simp [scancodeReceived, e0ExtReceived, checkPrintscreenPress]
  have hmul : Leads .waitingE0ext ⟨true, false, false, false⟩ [0x7c]
      .default ⟨true, true, false, false⟩ [.pressed .printScreen] :=
    leads_byte isScancode_prefix.2.2.2.2.1 fun t => by
      simp [scancodeReceived, e0ExtReceived, checkPrintscreenPress, keyPressed]
  exact (((leads_e0 _).append hshift).append (leads_e0 _)).append hmul

theorem leads_printScreen_release :
    Leads .default ⟨true, true, false, false⟩
      [0xe0, 0xf0, 0x7c, 0xe0, 0xf0, 0x12]
      .default ⟨false, false, false, false⟩ [.released .printScreen] := by
  have hmul : Leads .waitingE0release ⟨true, true, false, false⟩ [0x7c]
      .default ⟨true, false, false, false⟩ [] :=
    leads_byte isScancode_prefix.2.2.2.2.1 fun t => by
      simp [scancodeReceived, e0ReleaseReceived, checkPrintscreenRelease]
  have hshift : Leads .waitingE0release ⟨true, false, false, false⟩ [0x12]
      .default ⟨false, false, false, false⟩ [.released .printScreen] :=
    leads_byte isScancode_prefix.2.2.2.1 fun t => by
      simp [scancodeReceived, e0ReleaseReceived, checkPrintscreenRelease,
        keyReleased]
  exact (((leads_e0 _).append ((leads_e0_f0 _).append hmul)).append
    (leads_e0 _)).append ((leads_e0_f0 _).append hshift)

theorem leads_pause (down : Bool) :
    Leads .default ⟨down, down, false, false⟩
      [0xe1, 0x14, 0x77, 0xe1, 0xf0, 0x14, 0xf0, 0x77]
      .default ⟨down, down, false, false⟩
      [.pressed .pause, .released .pause] := by
  have hctrl : Leads .waitingE1ext1 ⟨down, down, false, false⟩ [0x14]
      .waitingE1ext2 ⟨down, down, true, false⟩ [] :=
    leads_byte isScancode_prefix.2.2.2.2.2.1 fun t => by
      simp [scancodeReceived, e1Ext1Received]
  have hnum : Leads .waitingE1ext2 ⟨down, down, true, false⟩ [0x77]
      .default ⟨down, down, true, true⟩ [.pressed .pause] :=
    leads_byte isScancode_prefix.2.2.2.2.2.2 fun t => by
      simp [scancodeReceived, e1Ext2Received, checkPausePress, keyPressed]
  have hrelease : Leads .waitingE1ext1 ⟨down, down, true, true⟩ [0xf0]
      .waitingE1release1 ⟨down, down, true, true⟩ [] :=
    leads_byte isScancode_prefix.2.2.1 fun t => by
      simp [scancodeReceived, e1Ext1Received]
  have hctrlUp : Leads .waitingE1release1 ⟨down, down, true, true⟩ [0x14]
      .waitingE1ext2 ⟨down, down, false, true⟩ [] :=
    leads_byte isScancode_prefix.2.2.2.2.2.1 fun t => by
      simp [scancodeReceived, e1Release1Received]
  have hrelease2 : Leads .waitingE1ext2 ⟨down, down, false, true⟩ [0xf0]
      .waitingE1release2 ⟨down, down, false, true⟩ [] :=
    leads_byte isScancode_prefix.2.2.1 fun t => by
      simp [scancodeReceived, e1Ext2Received]
  have hnumUp : Leads .waitingE1release2 ⟨down, down, false, true⟩ [0x77]
      .default ⟨down, down, false, false⟩ [.released .pause] :=
    leads_byte isScancode_prefix.2.2.2.2.2.2 fun t => by
      simp [scancodeReceived, e1Release2Received, checkPauseRelease,
        keyReleased]
  exact ((leads_e1 _).append (hctrl.append hnum)).append
    ((leads_e1 _).append (hrelease.append (hctrlUp.append
      (hrelease2.append hnumUp))))

end Events

theorem leads_event (e : ScanEvent) (down : Bool) (h : e.Alternates down) :
    Leads .default ⟨down, down, false, false⟩ e.bytes .default
      ⟨e.printDown down, e.printDown down, false, false⟩ e.calls := by
  cases e with
  | plain press entry =>
      have hlast := leads_plain ⟨down, down, false, false⟩ entry.2 press
      cases press with
      | true => exact hlast
      | false => exact (leads_f0 _).append hlast
  | extended press entry =>
      have hlast := leads_extended ⟨down, down, false, false⟩ entry.2 press
      cases press with
      | true => exact (leads_e0 _).append hlast
      | false => exact (leads_e0 _).append ((leads_e0_f0 _).append hlast)
  | printScreen next =>
      have hnext : next = !down := h
      subst hnext
      cases down with
      | true => exact leads_printScreen_release
      | false => exact leads_printScreen_press
  | pause => exact leads_pause down

theorem isScancode_of_event (e : ScanEvent) :
    ∀ byte ∈ e.bytes, IsScancode byte := by
  obtain ⟨he0, he1, hf0, h12, h7c, h14, h77⟩ := isScancode_prefix
  cases e with
  | plain down entry =>
      obtain ⟨_, _, hentry, _⟩ := keymapDefault_entry entry.1 entry.2
      cases down <;> simp [ScanEvent.bytes, hf0, hentry]
  | extended down entry =>
      obtain ⟨_, _, hentry, _⟩ := keymapE0_entry entry.1 entry.2
      cases down <;> simp [ScanEvent.bytes, he0, hf0, hentry]
  | printScreen down =>
      cases down <;> simp [ScanEvent.bytes, he0, hf0, h12, h7c]
  | pause => simp [ScanEvent.bytes, he1, hf0, h14, h77]

theorem length_bytes_le (e : ScanEvent) : e.bytes.length ≤ 8 := by
  cases e with
  | plain down entry => cases down <;> simp [ScanEvent.bytes]
  | extended down entry => cases down <;> simp [ScanEvent.bytes]
  | printScreen down => cases down <;> simp [ScanEvent.bytes]
  | pause => simp [ScanEvent.bytes]

/-- Whether Print Screen is down behind the events. -/
def printsDown (down : Bool) (events : List ScanEvent) : Bool :=
  events.foldl (fun down e => e.printDown down) down

/-- Between two events the keyboard is in its default state, and its fake keys
are down with Print Screen. -/
structure Ready (down : Bool) (s : Kbdcontext) : Prop where
  state : s.state = .default
  flags : s.flags = ⟨down, down, false, false⟩

/-- The calls have been made, and nothing was reported. -/
structure Decodes (calls : List KeyCall) (s s' : Kbdcontext) : Prop where
  kbdCalls : s'.kbdCalls = s.kbdCalls ++ calls
  badScancodes : s'.badScancodes = s.badScancodes

theorem scan_events {events : List ScanEvent} {down : Bool}
    (halternate : PrintsAlternate down events) {s : Kbdcontext}
    (hready : Ready down s) :
    ∃ s', s.scan (events.flatMap ScanEvent.bytes) = .ok s' ∧
      Ready (printsDown down events) s' ∧
      Decodes (events.flatMap ScanEvent.calls) s s' := by
  induction events generalizing down s with
  | nil => exact ⟨s, rfl, hready, (List.append_nil _).symm, rfl⟩
  | cons e rest ih =>
      obtain ⟨hfirst, hrest⟩ := halternate
      have hlength := length_bytes_le e
      obtain ⟨t, ht, htscans⟩ := leads_event e down hfirst s s.kbdCalls
        s.badScancodes 0
        ⟨hready.state, hready.flags, rfl, rfl,
          fun hne => absurd hready.state hne⟩ (by omega)
      obtain ⟨u, hu, huready, hudecodes⟩ :=
        ih hrest ⟨htscans.state, htscans.flags⟩
      refine ⟨u, ?_, huready, ?_, ?_⟩
      · rw [List.flatMap_cons, scan_append, ht]
        exact hu
      · rw [hudecodes.kbdCalls, htscans.kbdCalls, List.flatMap_cons,
          List.append_assoc]
      · rw [hudecodes.badScancodes, htscans.badScancodes]

/-- What is done to the keys comes out of the bytes, whatever commands are
requested in the meantime. -/
theorem arrivals_decoded {events : List ScanEvent}
    (halternate : PrintsAlternate false events) {arrivals : List Arrival}
    (hbytes : arrivals.filterMap Arrival.byte? =
      events.flatMap ScanEvent.bytes)
    {s : Kbdcontext} (hready : Ready false s) :
    ∃ s', arrivals.foldlM arrive s = .ok s' ∧
      Ready (printsDown false events) s' ∧
      Decodes (events.flatMap ScanEvent.calls) s s' := by
  obtain ⟨s', hs', hready', hdecodes⟩ := scan_events halternate hready
  have hscancodes : ∀ byte ∈ arrivals.filterMap Arrival.byte?,
      IsScancode byte := by
    intro byte hbyte
    rw [hbytes] at hbyte
    obtain ⟨e, _, hbyte⟩ := List.mem_flatMap.1 hbyte
    exact isScancode_of_event e byte hbyte
  rw [← hbytes] at hs'
  have hstate : s.state ≠ .waitingResponsedata := by
    rw [hready.state]
    nofun
  obtain ⟨c, hc⟩ := arrivals_eq_scan hstate hscancodes hs'
  exact ⟨s'.withCommands c, hc, ⟨hready'.state, hready'.flags⟩,
    ⟨hdecodes.kbdCalls, hdecodes.badScancodes⟩⟩

/-- Print Screen and Pause with the key A held. -/
theorem printScreen_pause_decoded :
    ∃ s', ([0x1c, 0xe0, 0x12, 0xe0, 0x7c, 0xe1, 0x14, 0x77, 0xe1, 0xf0, 0x14,
        0xf0, 0x77, 0xf0, 0x1c].map (Arrival.byte · true)).foldlM arrive
          Keyboard.initial.ctx = .ok s' ∧
      Ready true s' ∧
      s'.kbdCalls = [.pressed .a, .pressed .printScreen, .pressed .pause,
        .released .pause, .released .a] := by
  have ha : ((0x1c, .a) : BitVec 8 × Key) ∈ keymapDefault := by decide
  have halternate : PrintsAlternate false [.plain true ⟨_, ha⟩,
      .printScreen true, .pause, .plain false ⟨_, ha⟩] :=
    ⟨trivial, rfl, trivial, trivial, trivial⟩
  have hbytes : ([0x1c, 0xe0, 0x12, 0xe0, 0x7c, 0xe1, 0x14, 0x77, 0xe1, 0xf0,
      0x14, 0xf0, 0x77, 0xf0, 0x1c].map (Arrival.byte · true)).filterMap
        Arrival.byte? =
      [ScanEvent.plain true ⟨_, ha⟩, .printScreen true, .pause,
        .plain false ⟨_, ha⟩].flatMap ScanEvent.bytes := rfl
  have hready : Ready false Keyboard.initial.ctx := ⟨rfl, rfl⟩
  obtain ⟨s', hs', hready', hdecodes⟩ :=
    arrivals_decoded halternate hbytes hready
  exact ⟨s', hs', hready', hdecodes.kbdCalls⟩

end Kbdcontext

end Ps2Kbd
end Yjkos
