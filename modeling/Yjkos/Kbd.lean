import Yjkos.KbdKey
import Yjkos.Machine
import Yjkos.TransitionRun

/-!
# Key events

`kbd_key_pressed` and `kbd_key_released` of `kernel/io/kbd.c`, which run with
interrupts disabled.  The event queue is kept as the list of all events which
have been entered, the last one first, each with the key whose press or
release it comes from.
-/

namespace Yjkos
namespace Kbd

/-- The bits of `s_flags`. -/
structure Flags where
  lockCaps : Bool
  lockNum : Bool
  lockScroll : Bool
  modLshift : Bool
  modRshift : Bool
  modLctrl : Bool
  modRctrl : Bool
  modLalt : Bool
  modRalt : Bool
  modLsuper : Bool
  modRsuper : Bool
deriving DecidableEq

/-- `KBD_FLAG_MOD_SHIFT`. -/
def Flags.modShift (flags : Flags) : Bool := flags.modLshift || flags.modRshift

/-- The flag of a modifier key which is no lock key. -/
def Flags.setModifier (flags : Flags) (down : Bool) : Key → Flags
  | .lshift => { flags with modLshift := down }
  | .rshift => { flags with modRshift := down }
  | .lctrl => { flags with modLctrl := down }
  | .rctrl => { flags with modRctrl := down }
  | .lalt => { flags with modLalt := down }
  | .ralt => { flags with modRalt := down }
  | .lsuper => { flags with modLsuper := down }
  | .rsuper => { flags with modRsuper := down }
  | _ => flags

structure KeyEvent where
  key : Key
  chr : BitVec 8
  isDown : Bool
deriving DecidableEq

structure LoggedEvent where
  cause : Key
  event : KeyEvent
deriving DecidableEq

/-- `ledUpdates` are the arguments which the devices were given. -/
structure KbdState where
  flags : Flags
  keysdown : Key → Bool
  ledUpdates : List (Bool × Bool × Bool)
  log : List LoggedEvent

def updateLeds (s : KbdState) : KbdState :=
  { s with ledUpdates :=
      (s.flags.lockScroll, s.flags.lockCaps, s.flags.lockNum) ::
        s.ledUpdates }

def enqueueEvent (s : KbdState) (cause : Key) (event : KeyEvent) : KbdState :=
  { s with log := ⟨cause, event⟩ :: s.log }

/-- `key_to_report` and `chr`, which a press and a release find alike. -/
def keyToReport (flags : Flags) (key : Key) : Key × BitVec 8 :=
  let entry := keymap key
  if entry.flagNumlock && !flags.lockNum then (entry.keyAlt, 0)
  else if entry.flagCapslock && flags.lockCaps ||
      entry.flagShift && flags.modShift then (key, entry.chralt)
  else (key, entry.chr)

def kbdKeyReleased (s : KbdState) (key : Key) : KbdState :=
  let s := { s with flags := s.flags.setModifier false key }
  let (keyToReport, chr) := keyToReport s.flags key
  if !s.keysdown key then s
  else
    let s := { s with keysdown := Function.update s.keysdown key false }
    if keyToReport ≠ .invalid then
      enqueueEvent s key ⟨keyToReport, chr, false⟩
    else s

/-- The body of the loop of `release_all_keys_except`. -/
def releaseUnless (except : Key) (s : KbdState) (key : Key) : KbdState :=
  if key = except then s
  else if s.keysdown key then kbdKeyReleased s key
  else s

def releaseAllKeysExcept (s : KbdState) (except : Key) : KbdState :=
  Key.fromOne.foldl (releaseUnless except) s

/-- The `switch` of `kbd_key_pressed`. -/
def lockOrModify (s : KbdState) (key : Key) : KbdState :=
  match key with
  | .capsLock =>
      updateLeds { s with
        flags := { s.flags with lockCaps := !s.flags.lockCaps } }
  | .numLock =>
      releaseAllKeysExcept (updateLeds { s with
        flags := { s.flags with lockNum := !s.flags.lockNum } }) .numLock
  | .scrollLock =>
      updateLeds { s with
        flags := { s.flags with lockScroll := !s.flags.lockScroll } }
  | _ => { s with flags := s.flags.setModifier true key }

def kbdKeyPressed (s : KbdState) (key : Key) : KbdState :=
  let s := lockOrModify s key
  let (keyToReport, chr) := keyToReport s.flags key
  let s := { s with keysdown := Function.update s.keysdown key true }
  if keyToReport ≠ .invalid then enqueueEvent s key ⟨keyToReport, chr, true⟩
  else s

inductive KeyCall where
  | pressed (key : Key)
  | released (key : Key)
deriving DecidableEq

/-- Every call returns. -/
def keyStep (s : KbdState) : KeyCall → Except Fault KbdState
  | .pressed key => .ok (kbdKeyPressed s key)
  | .released key => .ok (kbdKeyReleased s key)

/-- Nothing is locked or held. -/
def allUp : KbdState where
  flags := ⟨false, false, false, false, false, false, false, false, false,
    false, false⟩
  keysdown := fun _ => false
  ledUpdates := []
  log := []

/-- The key code of the last event of a key, when that is a key-down event. -/
def heldCode : List LoggedEvent → Key → Option Key
  | [], _ => none
  | e :: older, key =>
      if e.cause = key then
        if e.event.isDown then some e.event.key else none
      else heldCode older key

/-- Every key-up event has the code of the key-down event which it ends. -/
def Paired : List LoggedEvent → Prop
  | [] => True
  | e :: older =>
      (e.event.isDown = false → heldCode older e.cause = some e.event.key) ∧
        Paired older

/-- Whether the last event about a reported key says that it is down. -/
def reportedDown : List LoggedEvent → Key → Bool
  | [], _ => false
  | e :: older, code =>
      if e.event.key = code then e.event.isDown else reportedDown older code

/-- The code which a physical key is reported by. -/
def reportedKey (lockNum : Bool) (key : Key) : Key :=
  if (keymap key).flagNumlock && !lockNum then (keymap key).keyAlt else key

/-- A key which is marked down and has a code. -/
def Holds (s : KbdState) (key code : Key) : Prop :=
  s.keysdown key = true ∧ reportedKey s.flags.lockNum key = code ∧
    code ≠ .invalid

/-- The events pair up, the reported keys which are down are those which the
keys marked down stand for, and none when no key is. -/
structure EventsPairUp (s : KbdState) : Prop where
  paired : Paired s.log
  image : ∀ code, reportedDown s.log code = true ↔ ∃ key, Holds s key code
  released : (∀ key, s.keysdown key = false) →
    ∀ code, reportedDown s.log code = false

def KeepsPairs (s : KbdState) (call : KeyCall) : Prop :=
  ∀ s', keyStep s call = .ok s' → EventsPairUp s'

/-- Num Lock is not pressed while a key which depends on it is held, and a key
is not released while another one which is held has the same code. -/
def KeepsCodes (s : KbdState) : KeyCall → Prop
  | .pressed key => key = .numLock →
      ∀ held, s.keysdown held = true → (keymap held).flagNumlock = false
  | .released key => ∀ code, Holds s key code →
      ∀ other, Holds s other code → other = key

/-- What the events and the marks have to do with each other in every state
of a run. -/
structure Consistent (s : KbdState) : Prop where
  paired : Paired s.log
  held : ∀ key code, heldCode s.log key = some code ↔ Holds s key code
  image : ∀ code, reportedDown s.log code = true ↔ ∃ key, Holds s key code

@[simp]
theorem setModifier_lockNum (flags : Flags) (down : Bool) (key : Key) :
    (flags.setModifier down key).lockNum = flags.lockNum := by
  cases key <;> rfl

theorem keyToReport_fst (flags : Flags) (key : Key) :
    (keyToReport flags key).1 = reportedKey flags.lockNum key := by
  simp only [keyToReport, reportedKey]
  split
  next => rfl
  next => split <;> rfl

theorem reportedKey_plain {key : Key}
    (hplain : (keymap key).flagNumlock = false) (lockNum : Bool) :
    reportedKey lockNum key = key := by
  simp [reportedKey, hplain]

theorem keyAlt_ne {key : Key} (hflag : (keymap key).flagNumlock = true) :
    (keymap key).keyAlt ≠ key := by
  revert hflag
  cases key <;> decide

theorem keyAlt_invalid {key : Key} (hflag : (keymap key).flagNumlock = true)
    (hinvalid : (keymap key).keyAlt = .invalid) : key = .numpad5 := by
  revert hflag hinvalid
  cases key <;> decide

theorem reportedKey_not {key : Key} (hflag : (keymap key).flagNumlock = true)
    (lockNum : Bool) : reportedKey (!lockNum) key ≠ reportedKey lockNum key := by
  have hne := keyAlt_ne hflag
  cases lockNum with
  | true => simpa [reportedKey, hflag] using hne
  | false => simpa [reportedKey, hflag] using hne.symm

theorem reportedKey_invalid {key : Key}
    (hflag : (keymap key).flagNumlock = true) {lockNum : Bool}
    (hinvalid : reportedKey lockNum key = .invalid) :
    key = .numpad5 ∧ lockNum = false := by
  cases lockNum with
  | true =>
      obtain rfl : key = .invalid := by simpa [reportedKey] using hinvalid
      cases hflag
  | false =>
      exact ⟨keyAlt_invalid hflag (by simpa [reportedKey, hflag] using hinvalid),
        rfl⟩

theorem reportedKey_ne_numpad5 (key : Key) :
    reportedKey false key ≠ .numpad5 := by
  cases key <;> decide

section Events

variable {s : KbdState} {key code : Key}

/-- What a call about a key may do to the marks and the log: set the mark, and
enter an event when the key has a code. -/
structure Marks (s s' : KbdState) (key : Key) (down : Bool) : Prop where
  lockNum : s'.flags.lockNum = s.flags.lockNum
  keysdown : s'.keysdown = Function.update s.keysdown key down
  silent : reportedKey s.flags.lockNum key = .invalid → s'.log = s.log
  logged : reportedKey s.flags.lockNum key ≠ .invalid → ∃ chr, s'.log =
    ⟨key, reportedKey s.flags.lockNum key, chr, down⟩ :: s.log

theorem kbdKeyReleased_up (hup : s.keysdown key = false) :
    kbdKeyReleased s key =
      { s with flags := s.flags.setModifier false key } := by
  simp [kbdKeyReleased, hup]

theorem kbdKeyReleased_marks (hdown : s.keysdown key = true) :
    Marks s (kbdKeyReleased s key) key false := by
  have hcode := keyToReport_fst (s.flags.setModifier false key) key
  rw [setModifier_lockNum] at hcode
  simp only [kbdKeyReleased, hdown, Bool.not_true, Bool.false_eq_true,
    if_false, hcode]
  split
  next hvalid =>
    exact ⟨setModifier_lockNum _ _ _, rfl, fun h => absurd h hvalid,
      fun _ => ⟨_, rfl⟩⟩
  next hinvalid =>
    exact ⟨setModifier_lockNum _ _ _, rfl, fun _ => rfl,
      fun h => absurd h hinvalid⟩

theorem kbdKeyPressed_marks (s : KbdState) (key : Key) :
    Marks (lockOrModify s key) (kbdKeyPressed s key) key true := by
  have hcode := keyToReport_fst (lockOrModify s key).flags key
  simp only [kbdKeyPressed, hcode]
  split
  next hvalid =>
    exact ⟨rfl, rfl, fun h => absurd h hvalid, fun _ => ⟨_, rfl⟩⟩
  next hinvalid =>
    exact ⟨rfl, rfl, fun _ => rfl, fun h => absurd h hinvalid⟩

theorem lockOrModify_frame (hkey : key ≠ .numLock) :
    (lockOrModify s key).flags.lockNum = s.flags.lockNum ∧
      (lockOrModify s key).keysdown = s.keysdown ∧
      (lockOrModify s key).log = s.log := by
  cases key <;> first | exact absurd rfl hkey | exact ⟨rfl, rfl, rfl⟩

variable {s' : KbdState}

theorem Consistent.of_frame (h : Consistent s)
    (hflags : s'.flags.lockNum = s.flags.lockNum)
    (hkeysdown : s'.keysdown = s.keysdown) (hlog : s'.log = s.log) :
    Consistent s' := by
  have hholds : ∀ key code, Holds s' key code ↔ Holds s key code := by
    intro key code
    unfold Holds
    rw [hflags, hkeysdown]
  refine ⟨hlog ▸ h.paired, ?_, ?_⟩
  · intro key code
    rw [hlog, hholds]
    exact h.held key code
  · intro code
    rw [hlog, h.image]
    exact exists_congr fun key => (hholds key code).symm

theorem Marks.holds_iff {down : Bool} (hmarks : Marks s s' key down)
    (other code : Key) :
    Holds s' other code ↔
      (if other = key then down = true else s.keysdown other = true) ∧
        reportedKey s.flags.lockNum other = code ∧ code ≠ .invalid := by
  unfold Holds
  rw [hmarks.lockNum, hmarks.keysdown, Function.update_apply]
  split <;> rfl

theorem Consistent.silent (h : Consistent s) {down : Bool}
    (hmarks : Marks s s' key down)
    (hinvalid : reportedKey s.flags.lockNum key = .invalid) :
    Consistent s' := by
  have hholds : ∀ other code, Holds s' other code ↔ Holds s other code := by
    intro other code
    rw [hmarks.holds_iff]
    split
    next heq =>
      subst heq
      constructor
      · rintro ⟨_, hcode, hvalid⟩
        exact absurd (hcode.symm.trans hinvalid) hvalid
      · rintro ⟨_, hcode, hvalid⟩
        exact absurd (hcode.symm.trans hinvalid) hvalid
    next => rfl
  have hlog := hmarks.silent hinvalid
  refine ⟨hlog ▸ h.paired, ?_, ?_⟩
  · intro other code
    rw [hlog, hholds]
    exact h.held other code
  · intro code
    rw [hlog, h.image]
    exact exists_congr fun other => (hholds other code).symm

theorem Consistent.press (h : Consistent s) (hmarks : Marks s s' key true) :
    Consistent s' := by
  by_cases hinvalid : reportedKey s.flags.lockNum key = .invalid
  · exact h.silent hmarks hinvalid
  obtain ⟨chr, hlog⟩ := hmarks.logged hinvalid
  constructor
  · rw [hlog]
    exact ⟨(fun hup => nomatch hup), h.paired⟩
  · intro other code
    rw [hlog, hmarks.holds_iff]
    simp only [heldCode, eq_comm (a := key), if_true]
    split
    next heq =>
      subst heq
      simp only [Option.some.injEq, true_and]
      constructor
      · rintro rfl
        exact ⟨rfl, hinvalid⟩
      · exact fun hcode => hcode.1
    next => exact h.held other code
  · intro code
    rw [hlog]
    simp only [reportedDown, hmarks.holds_iff]
    split
    next heq =>
      subst heq
      exact iff_of_true rfl ⟨key, by simp, rfl, hinvalid⟩
    next hne =>
      rw [h.image]
      refine exists_congr fun other => ?_
      split
      next heq =>
        subst heq
        exact ⟨fun hholds => absurd hholds.2.1 hne,
          fun hcode => absurd hcode.2.1 hne⟩
      next => rfl

theorem Consistent.release (h : Consistent s) (hdown : s.keysdown key = true)
    (hmarks : Marks s s' key false)
    (halone : ∀ code, Holds s key code →
      ∀ other, Holds s other code → other = key) : Consistent s' := by
  by_cases hinvalid : reportedKey s.flags.lockNum key = .invalid
  · exact h.silent hmarks hinvalid
  obtain ⟨chr, hlog⟩ := hmarks.logged hinvalid
  have hkey : Holds s key (reportedKey s.flags.lockNum key) :=
    ⟨hdown, rfl, hinvalid⟩
  constructor
  · rw [hlog]
    exact ⟨fun _ => (h.held key _).2 hkey, h.paired⟩
  · intro other code
    rw [hlog, hmarks.holds_iff]
    simp only [heldCode, eq_comm (a := key), Bool.false_eq_true, if_false]
    split
    next => simp
    next => exact h.held other code
  · intro code
    rw [hlog]
    simp only [reportedDown, hmarks.holds_iff, Bool.false_eq_true]
    split
    next heq =>
      subst heq
      refine iff_of_false (fun h => nomatch h) ?_
      rintro ⟨other, hmarked, hcode⟩
      split at hmarked
      next => exact hmarked
      next hne => exact hne (halone _ hkey other ⟨hmarked, hcode⟩)
    next hne =>
      rw [h.image]
      refine exists_congr fun other => ?_
      split
      next heq =>
        subst heq
        exact ⟨fun hholds => absurd hholds.2.1 hne, fun hfalse => hfalse.1.elim⟩
      next => rfl

/-- A release which leaves another key of the same code down takes that code
from it. -/
theorem Marks.takes_code (hmarks : Marks s s' key false)
    (hkey : Holds s key code) {other : Key} (hother : Holds s other code)
    (hne : other ≠ key) :
    reportedDown s'.log code = false ∧ Holds s' other code := by
  obtain ⟨_, rfl, hvalid⟩ := hkey
  obtain ⟨chr, hlog⟩ := hmarks.logged hvalid
  constructor
  · rw [hlog]
    simp [reportedDown]
  · rw [hmarks.holds_iff, if_neg hne]
    exact hother

theorem Consistent.eventsPairUp (h : Consistent s) : EventsPairUp s := by
  refine ⟨h.paired, h.image, ?_⟩
  intro hup code
  rw [Bool.eq_false_iff, Ne, h.image]
  rintro ⟨key, hdown, _⟩
  rw [hup key] at hdown
  cases hdown

end Events

section NumLock

variable {s : KbdState} {except : Key}

theorem releaseUnless_cases (except : Key) (s : KbdState) (key : Key) :
    releaseUnless except s key = s ∧
        (key = except ∨ s.keysdown key = false) ∨
      key ≠ except ∧ s.keysdown key = true ∧
        Marks s (releaseUnless except s key) key false := by
  unfold releaseUnless
  split
  next heq => exact Or.inl ⟨rfl, Or.inl heq⟩
  next hne =>
    split
    next hdown => exact Or.inr ⟨hne, hdown, kbdKeyReleased_marks hdown⟩
    next hup => exact Or.inl ⟨rfl, Or.inr (Bool.eq_false_iff.2 hup)⟩

/-- No key which is held depends on Num Lock. -/
def AllPlain (s : KbdState) : Prop :=
  ∀ held, s.keysdown held = true → (keymap held).flagNumlock = false

theorem AllPlain.holds_eq (hplain : AllPlain s) {key code : Key}
    (hholds : Holds s key code) : key = code := by
  rw [← hholds.2.1, reportedKey_plain (hplain key hholds.1)]

theorem releaseUnless_consistent (h : Consistent s) (hplain : AllPlain s)
    (key : Key) :
    Consistent (releaseUnless except s key) ∧
      AllPlain (releaseUnless except s key) := by
  rcases releaseUnless_cases except s key with ⟨hsame, _⟩ | ⟨_, hdown, hmarks⟩
  · rw [hsame]
    exact ⟨h, hplain⟩
  · refine ⟨h.release hdown hmarks ?_, ?_⟩
    · intro code hkey other hother
      rw [hplain.holds_eq hkey, hplain.holds_eq hother]
    · intro held hheld
      rw [hmarks.keysdown, Function.update_apply] at hheld
      split at hheld
      next => cases hheld
      next => exact hplain held hheld

theorem releaseAll_consistent (h : Consistent s) (hplain : AllPlain s)
    (keys : List Key) : Consistent (keys.foldl (releaseUnless except) s) := by
  induction keys generalizing s with
  | nil => exact h
  | cons key rest ih =>
      obtain ⟨hnext, hplain'⟩ := releaseUnless_consistent h hplain key
      exact ih hnext hplain'

theorem Consistent.toggle (h : Consistent s) (hplain : AllPlain s)
    {t : KbdState} (hkeysdown : t.keysdown = s.keysdown)
    (hlog : t.log = s.log) : Consistent t ∧ AllPlain t := by
  have hholds : ∀ key code, Holds t key code ↔ Holds s key code := by
    intro key code
    unfold Holds
    rw [hkeysdown]
    refine and_congr_right fun hdown => ?_
    rw [reportedKey_plain (hplain key hdown),
      reportedKey_plain (hplain key hdown)]
  refine ⟨⟨hlog ▸ h.paired, ?_, ?_⟩, ?_⟩
  · intro key code
    rw [hlog, hholds]
    exact h.held key code
  · intro code
    rw [hlog, h.image]
    exact exists_congr fun key => (hholds key code).symm
  · intro held hheld
    rw [hkeysdown] at hheld
    exact hplain held hheld

theorem Marks.paired {s' : KbdState} {key : Key} {down : Bool}
    (hmarks : Marks s s' key down) (hpaired : Paired s'.log) :
    Paired s.log := by
  by_cases hinvalid : reportedKey s.flags.lockNum key = .invalid
  · rw [← hmarks.silent hinvalid]
    exact hpaired
  · obtain ⟨chr, hlog⟩ := hmarks.logged hinvalid
    rw [hlog] at hpaired
    exact hpaired.2

theorem releaseAll_paired (keys : List Key)
    (hpaired : Paired (keys.foldl (releaseUnless except) s).log) :
    Paired s.log := by
  induction keys generalizing s with
  | nil => exact hpaired
  | cons key rest ih =>
      have hnext := ih hpaired
      rcases releaseUnless_cases except s key with ⟨hsame, _⟩ | ⟨_, _, hmarks⟩
      · exact hsame ▸ hnext
      · exact hmarks.paired hnext

/-- Released under a code which it is not held under, a key breaks the
pairs. -/
theorem releaseAll_unpaired {keys : List Key} {key : Key} (hmem : key ∈ keys)
    (hne : key ≠ except) (hdown : s.keysdown key = true)
    (hvalid : reportedKey s.flags.lockNum key ≠ .invalid)
    (hheld : heldCode s.log key ≠ some (reportedKey s.flags.lockNum key)) :
    ¬ Paired (keys.foldl (releaseUnless except) s).log := by
  induction keys generalizing s with
  | nil => cases hmem
  | cons first rest ih =>
      intro hpaired
      rw [List.foldl_cons] at hpaired
      rcases releaseUnless_cases except s first with
        ⟨hsame, hwhy⟩ | ⟨_, _, hmarks⟩
      · rw [hsame] at hpaired
        rcases List.mem_cons.1 hmem with rfl | hrest
        · rcases hwhy with heq | hup
          · exact hne heq
          · rw [hdown] at hup
            cases hup
        · exact ih hrest hdown hvalid hheld hpaired
      · by_cases hfirst : first = key
        · subst hfirst
          obtain ⟨chr, hlog⟩ := hmarks.logged hvalid
          have hlast := releaseAll_paired rest hpaired
          rw [hlog] at hlast
          exact hheld (hlast.1 rfl)
        · have hrest : key ∈ rest := by
            rcases List.mem_cons.1 hmem with heq | hrest
            · exact absurd heq.symm hfirst
            · exact hrest
          refine ih hrest ?_ ?_ ?_ hpaired
          · rw [hmarks.keysdown, Function.update_of_ne (Ne.symm hfirst)]
            exact hdown
          · rw [hmarks.lockNum]
            exact hvalid
          · rw [hmarks.lockNum]
            by_cases hinvalid : reportedKey s.flags.lockNum first = .invalid
            · rw [hmarks.silent hinvalid]
              exact hheld
            · obtain ⟨chr, hlog⟩ := hmarks.logged hinvalid
              rw [hlog, heldCode, if_neg hfirst]
              exact hheld

theorem releaseAll_code (except : Key) (keys : List Key) (code : Key)
    (hcode : ∀ key, reportedKey s.flags.lockNum key ≠ code) :
    reportedDown (keys.foldl (releaseUnless except) s).log code =
        reportedDown s.log code ∧
      (keys.foldl (releaseUnless except) s).flags.lockNum =
        s.flags.lockNum := by
  induction keys generalizing s with
  | nil => exact ⟨rfl, rfl⟩
  | cons key rest ih =>
      rw [List.foldl_cons]
      rcases releaseUnless_cases except s key with ⟨hsame, _⟩ | ⟨_, _, hmarks⟩
      · rw [hsame]
        exact ih hcode
      · obtain ⟨hdown, hlockNum⟩ := ih (s := releaseUnless except s key)
          (hmarks.lockNum ▸ hcode)
        rw [hdown, hlockNum, hmarks.lockNum]
        refine ⟨?_, rfl⟩
        by_cases hinvalid : reportedKey s.flags.lockNum key = .invalid
        · rw [hmarks.silent hinvalid]
        · obtain ⟨chr, hlog⟩ := hmarks.logged hinvalid
          rw [hlog, reportedDown, if_neg (hcode key)]

/-- Num Lock with its flag changed, before the other keys are released. -/
def toggledNumLock (s : KbdState) : KbdState :=
  updateLeds { s with
    flags := { s.flags with lockNum := !s.flags.lockNum } }

theorem numLock_pressed_marks (s : KbdState) :
    Marks ((Key.fromOne).foldl (releaseUnless .numLock) (toggledNumLock s))
      (kbdKeyPressed s .numLock) .numLock true :=
  kbdKeyPressed_marks s .numLock

theorem numLock_consistent (h : Consistent s) (hplain : AllPlain s) :
    Consistent (kbdKeyPressed s .numLock) := by
  obtain ⟨htoggled, hplain'⟩ :=
    h.toggle (t := toggledNumLock s) hplain rfl rfl
  exact (releaseAll_consistent htoggled hplain' _).press
    (numLock_pressed_marks s)

/-- A key which depends on Num Lock and is held when it is pressed is released
under its other code, or keeps its code down. -/
theorem numLock_pairs_break (h : Consistent s) {key : Key}
    (hdown : s.keysdown key = true)
    (hflag : (keymap key).flagNumlock = true) :
    ¬ EventsPairUp (kbdKeyPressed s .numLock) := by
  intro hpairs
  have hmarks := numLock_pressed_marks s
  have hne : key ≠ .numLock := by
    rintro rfl
    cases hflag
  have hmem : key ∈ Key.fromOne := by
    rw [Key.mem_fromOne]
    rintro rfl
    cases hflag
  have hcode := reportedKey_not hflag s.flags.lockNum
  generalize Key.fromOne = keys at hmem hmarks
  by_cases hinvalid : reportedKey (!s.flags.lockNum) key = .invalid
  · obtain ⟨rfl, hnot⟩ := reportedKey_invalid hflag hinvalid
    have hon : s.flags.lockNum = true := by simpa using hnot
    have hstill : reportedDown s.log .numpad5 = true :=
      (h.image _).2 ⟨.numpad5, hdown, by rw [hon]; rfl, by decide⟩
    have hoff : (toggledNumLock s).flags.lockNum = false := hnot
    obtain ⟨hdown', hlockNum⟩ :=
      releaseAll_code .numLock keys .numpad5 (s := toggledNumLock s)
        (hoff ▸ reportedKey_ne_numpad5)
    obtain ⟨chr, hlog⟩ := hmarks.logged
      (by rw [reportedKey_plain (by rfl)]; decide)
    have hleft : reportedDown (kbdKeyPressed s .numLock).log .numpad5 =
        true := by
      rw [hlog, reportedDown, reportedKey_plain (by rfl),
        if_neg (fun heq => nomatch heq), hdown']
      exact hstill
    obtain ⟨other, _, hother, _⟩ := (hpairs.image _).1 hleft
    rw [hmarks.lockNum, hlockNum, hoff] at hother
    exact reportedKey_ne_numpad5 other hother
  · have hheld : heldCode (toggledNumLock s).log key ≠
        some (reportedKey (toggledNumLock s).flags.lockNum key) :=
      fun hheld => hcode ((h.held key _).1 hheld).2.1.symm
    have hvalid : reportedKey (toggledNumLock s).flags.lockNum key ≠
        .invalid := hinvalid
    exact releaseAll_unpaired (s := toggledNumLock s) hmem hne hdown hvalid
      hheld (hmarks.paired hpairs.paired)

end NumLock

theorem keyStep_consistent {s s' : KbdState} {call : KeyCall}
    (h : Consistent s) (hgood : KeepsCodes s call)
    (hs' : keyStep s call = .ok s') : Consistent s' := by
  cases call with
  | pressed key =>
      obtain rfl : kbdKeyPressed s key = s' := by simpa [keyStep] using hs'
      by_cases hkey : key = .numLock
      · subst hkey
        exact numLock_consistent h (hgood rfl)
      · obtain ⟨hflags, hkeysdown, hlog⟩ := lockOrModify_frame (s := s) hkey
        exact (h.of_frame hflags hkeysdown hlog).press
          (kbdKeyPressed_marks s key)
  | released key =>
      obtain rfl : kbdKeyReleased s key = s' := by simpa [keyStep] using hs'
      cases hdown : s.keysdown key with
      | false =>
          rw [kbdKeyReleased_up hdown]
          exact h.of_frame (setModifier_lockNum _ _ _) rfl rfl
      | true => exact h.release hdown (kbdKeyReleased_marks hdown) hgood

/-- A call keeps the pairs exactly when it takes no code from a key which is
held. -/
theorem keepsPairs_iff {s : KbdState} (h : Consistent s) (call : KeyCall) :
    KeepsPairs s call ↔ KeepsCodes s call := by
  constructor
  · intro hkeeps
    cases call with
    | pressed key =>
        rintro rfl held hheld
        by_contra hflag
        exact numLock_pairs_break h hheld (Bool.not_eq_false _ ▸ hflag)
          (hkeeps _ rfl)
    | released key =>
        intro code hkey other hother
        by_contra hne
        obtain ⟨hup, hstill⟩ :=
          (kbdKeyReleased_marks hkey.1).takes_code hkey hother hne
        have hdown := ((hkeeps _ rfl).image code).2 ⟨other, hstill⟩
        rw [hup] at hdown
        cases hdown
  · intro hgood s' hs'
    exact (keyStep_consistent h hgood hs').eventsPairUp

theorem allUp_consistent : Consistent allUp := by
  have hholds : ∀ key code, ¬ Holds allUp key code :=
    fun _ _ hholds => nomatch hholds.1
  refine ⟨trivial, ?_, ?_⟩
  · exact fun key code => iff_of_false nofun (hholds key code)
  · exact fun code => iff_of_false nofun fun hkey => hholds _ _ hkey.choose_spec

/-- The events of a run pair up after every call exactly when no call of the
run takes a code from a key which is held. -/
theorem keyRun_pairs_iff (calls : List KeyCall) :
    TransitionRun.Admitted KeepsPairs keyStep allUp calls ↔
      TransitionRun.Admitted KeepsCodes keyStep allUp calls := by
  have hiff : ∀ (s : KbdState) call, Consistent s →
      (KeepsPairs s call ↔ KeepsCodes s call) :=
    fun _ call h => keepsPairs_iff h call
  have hstep : ∀ (s : KbdState) call s', Consistent s → KeepsCodes s call →
      keyStep s call = .ok s' → Consistent s' :=
    fun _ _ _ h hgood hs' => keyStep_consistent h hgood hs'
  exact TransitionRun.admitted_iff hiff hstep allUp_consistent calls

/-- The seven of the keypad is held when Num Lock is pressed: it went down as
Home and comes up as the seven. -/
theorem numLock_over_keypad :
    ¬ ∀ calls, TransitionRun.Admitted KeepsPairs keyStep allUp calls := by
  intro hall
  have hrun := hall [.pressed .numpad7, .pressed .numLock]
  have hheld : (kbdKeyPressed allUp .numpad7).keysdown .numpad7 = true := rfl
  have hgood : KeepsCodes allUp (.pressed .numpad7) := nofun
  exact numLock_pairs_break (keyStep_consistent allUp_consistent hgood rfl)
    hheld rfl ((hrun.2 _ rfl).1 _ rfl)

end Kbd
end Yjkos
