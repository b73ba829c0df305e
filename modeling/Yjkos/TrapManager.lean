import Yjkos.LinkedList

/-!
# Dispatch of traps

`kernel/trapmanager.c` keeps one list of handlers for each trap.  A handler
carries a checksum of its own words, and the links of the list are among these
words, so a handler is sealed again when another one is put behind it.

Objects are named by their addresses; a node is named by the handler it lies
in.
-/

namespace Yjkos.TrapManager

open LinkedList LinkChain

/-- `YJKERNEL_ARCH_TRAP_COUNT`. -/
abbrev trapCount : ℕ := 256

/-- `struct trap_handler`, with the fields of its `struct list_node`. -/
structure TrapHandler where
  callback : UInt32
  data : UInt32
  checksum : UInt32
  next : Option UInt32
  prev : Option UInt32
  nodeData : UInt32
deriving DecidableEq

/-- The word of a link: the node lies behind the first three fields. -/
def linkWord : Option UInt32 → UInt32
  | none => 0
  | some handler => handler + 12

def TrapHandler.words (handler : TrapHandler) : List UInt32 :=
  [handler.callback, handler.data, handler.checksum, linkWord handler.next,
    linkWord handler.prev, handler.nodeData]

def calculateChecksum (handler : TrapHandler) : UInt32 :=
  let temp := { handler with checksum := 0 }
  let sum := temp.words.foldl (fun sum val => sum + val) 0
  ~~~0 - sum

/-- `struct list`. -/
structure ListHead where
  front : Option UInt32
  back : Option UInt32

structure State where
  traps : Fin trapCount → ListHead
  handlers : UInt32 → TrapHandler

namespace State

/-- The lists are empty in the zeroed static memory; the objects which will be
handlers hold anything. -/
def boot (handlers : UInt32 → TrapHandler) : State where
  traps _ := ⟨none, none⟩
  handlers := handlers

/-- One of the lists together with the nodes of all handlers. -/
def list (s : State) (trapnum : Fin trapCount) :
    LinkedList.State UInt32 UInt32 where
  front := (s.traps trapnum).front
  back := (s.traps trapnum).back
  next handler := (s.handlers handler).next
  prev handler := (s.handlers handler).prev
  data handler := (s.handlers handler).nodeData

def withList (s : State) (trapnum : Fin trapCount)
    (list : LinkedList.State UInt32 UInt32) : State where
  traps := Function.update s.traps trapnum ⟨list.front, list.back⟩
  handlers handler :=
    { s.handlers handler with
      next := list.next handler
      prev := list.prev handler
      nodeData := list.data handler }

def setHandler (s : State) (out : UInt32) (handler : TrapHandler) : State :=
  { s with handlers := Function.update s.handlers out handler }

/-- `handler->checksum = calculate_checksum(handler)`. -/
def reseal (s : State) (out : UInt32) : State :=
  let handler := s.handlers out
  s.setHandler out { handler with checksum := calculateChecksum handler }

end State

def trapmanagerRegisterTrap (s : State) (out : UInt32)
    (trapnum : Fin trapCount) (callback data : UInt32) : State :=
  let s := s.setHandler out
    { s.handlers out with callback := callback, data := data }
  let s := s.withList trapnum (listInsertBack (s.list trapnum) out out)
  let s := s.reseal out
  let s :=
    match (s.handlers out).prev with
    | some node => s.reseal (s.handlers node).nodeData
    | none => s
  match (s.handlers out).next with
  | some node => s.reseal (s.handlers node).nodeData
  | none => s

/-- What a trap does: it calls a callback or prints a message. -/
inductive Report where
  | outside (trapnum last : ℤ)
  | noHandler (trapnum : ℤ)
  | badChecksum (trapnum : ℤ) (expected got : UInt32)
  | called (callback : UInt32) (trapnum : ℤ) (trapframe data : UInt32)
deriving DecidableEq

def trapHandler (trapnum : ℤ) (trapframe : UInt32) (handler : TrapHandler) :
    Report :=
  let expectedChecksum := calculateChecksum handler
  let gotChecksum := handler.checksum
  if expectedChecksum ≠ gotChecksum then
    .badChecksum trapnum expectedChecksum gotChecksum
  else
    .called handler.callback trapnum trapframe handler.data

/-- `LIST_FOREACH` over the handlers, with fuel; `none` when it runs out. -/
def forEachHandler (s : State) (trapnum : ℤ) (trapframe : UInt32) :
    ℕ → Option UInt32 → Option (List Report)
  | _, none => some []
  | 0, some _ => none
  | fuel + 1, some node => do
      let handler := s.handlers (s.handlers node).nodeData
      let rest ← forEachHandler s trapnum trapframe fuel (s.handlers node).next
      pure (trapHandler trapnum trapframe handler :: rest)

/-- There is no result where the table is read before its start. -/
def trapmanagerTrap (s : State) (fuel : ℕ) (trapnum : ℤ)
    (trapframe : UInt32) : Option (List Report) :=
  if trapCount ≤ trapnum then
    some [.outside trapnum (trapCount - 1)]
  else if h : 0 ≤ trapnum ∧ trapnum.toNat < trapCount then
    match (s.traps ⟨trapnum.toNat, h.2⟩).front with
    | none => some [.noHandler trapnum]
    | some front => forEachHandler s trapnum trapframe fuel (some front)
  else
    none

/-- The arguments of a call of `trapmanager_register_trap`. -/
structure Registration where
  out : UInt32
  trapnum : Fin trapCount
  callback : UInt32
  data : UInt32

def register (s : State) (r : Registration) : State :=
  trapmanagerRegisterTrap s r.out r.trapnum r.callback r.data

def registerAll (s : State) (rs : List Registration) : State :=
  rs.foldl register s

/-- The registrations for one trap, in their order. -/
def registeredFor (trapnum : Fin trapCount) (rs : List Registration) :
    List Registration :=
  rs.filter fun r => r.trapnum = trapnum

section Reseal

variable {s : State} {handler other : UInt32} {n : Fin trapCount}

def Sealed (handler : TrapHandler) : Prop :=
  handler.checksum = calculateChecksum handler

/-- The stored checksum does not count. -/
theorem calculateChecksum_checksum (handler : TrapHandler) (checksum : UInt32) :
    calculateChecksum { handler with checksum := checksum } =
      calculateChecksum handler := rfl

@[simp]
theorem list_reseal : (s.reseal handler).list n = s.list n := by
  unfold State.reseal State.list State.setHandler
  congr 1 <;> funext node <;> by_cases h : node = handler <;>
    simp [h]

@[simp]
theorem callback_reseal :
    ((s.reseal handler).handlers other).callback =
      (s.handlers other).callback := by
  by_cases h : other = handler <;>
    simp [State.reseal, State.setHandler, h]

@[simp]
theorem data_reseal :
    ((s.reseal handler).handlers other).data = (s.handlers other).data := by
  by_cases h : other = handler <;>
    simp [State.reseal, State.setHandler, h]

@[simp]
theorem nodeData_reseal :
    ((s.reseal handler).handlers other).nodeData =
      (s.handlers other).nodeData :=
  congrFun (congrArg LinkedList.State.data (list_reseal (n := 0))) other

@[simp]
theorem next_reseal :
    ((s.reseal handler).handlers other).next = (s.handlers other).next :=
  congrFun (congrArg LinkedList.State.next (list_reseal (n := 0))) other

@[simp]
theorem prev_reseal :
    ((s.reseal handler).handlers other).prev = (s.handlers other).prev :=
  congrFun (congrArg LinkedList.State.prev (list_reseal (n := 0))) other

theorem sealed_reseal : Sealed ((s.reseal handler).handlers handler) := by
  unfold Sealed State.reseal State.setHandler
  dsimp only
  rw [Function.update_self]
  exact (calculateChecksum_checksum _ _).symm

theorem Sealed.reseal (h : Sealed (s.handlers other)) :
    Sealed ((s.reseal handler).handlers other) := by
  by_cases hother : other = handler
  · rw [hother]
    exact sealed_reseal
  · have hsame : (s.reseal handler).handlers other = s.handlers other :=
      Function.update_of_ne hother ..
    rwa [hsame]

/-- Nothing but checksums has changed, and what was sealed still is. -/
structure Reseals (s s' : State) : Prop where
  traps_eq : s'.traps = s.traps
  list_eq : ∀ n, s'.list n = s.list n
  callback_eq : ∀ other,
    (s'.handlers other).callback = (s.handlers other).callback
  data_eq : ∀ other, (s'.handlers other).data = (s.handlers other).data
  sealed : ∀ other, Sealed (s.handlers other) → Sealed (s'.handlers other)

theorem reseals_reseal (s : State) (handler : UInt32) :
    Reseals s (s.reseal handler) where
  traps_eq := rfl
  list_eq _ := list_reseal
  callback_eq _ := callback_reseal
  data_eq _ := data_reseal
  sealed _ := Sealed.reseal

theorem Reseals.trans {s' s'' : State} (h : Reseals s s')
    (h' : Reseals s' s'') : Reseals s s'' where
  traps_eq := h'.traps_eq.trans h.traps_eq
  list_eq n := (h'.list_eq n).trans (h.list_eq n)
  callback_eq other := (h'.callback_eq other).trans (h.callback_eq other)
  data_eq other := (h'.data_eq other).trans (h.data_eq other)
  sealed other hother := h'.sealed other (h.sealed other hother)

end Reseal

section Register

variable {s s' : State} {n : Fin trapCount} {nodes : List UInt32}
  {rs : List Registration} {r : Registration}

/-- What a registration does to the list of its trap and to the other lists;
the new handler and the one before it are sealed. -/
structure Appends (s s' : State) (nodes : List UInt32) (r : Registration) :
    Prop where
  inserts : Inserts (s.list r.trapnum) (s'.list r.trapnum) nodes [] r.out r.out
  traps_other : ∀ n, n ≠ r.trapnum → s'.traps n = s.traps n
  callback_out : (s'.handlers r.out).callback = r.callback
  data_out : (s'.handlers r.out).data = r.data
  callback_other : ∀ other, other ≠ r.out →
    (s'.handlers other).callback = (s.handlers other).callback
  data_other : ∀ other, other ≠ r.out →
    (s'.handlers other).data = (s.handlers other).data
  sealed_out : Sealed (s'.handlers r.out)
  sealed_last : ∀ last, nodes.getLast? = some last → Sealed (s'.handlers last)
  sealed_other : ∀ other, other ≠ r.out → nodes.getLast? ≠ some other →
    Sealed (s.handlers other) → Sealed (s'.handlers other)

theorem list_withList (list : LinkedList.State UInt32 UInt32) :
    (s.withList n list).list n = list := by
  simp [State.withList, State.list]

/-- The handler is in its list, and nothing is sealed yet. -/
def listed (s : State) (r : Registration) : State :=
  let s := s.setHandler r.out
    { s.handlers r.out with callback := r.callback, data := r.data }
  s.withList r.trapnum (listInsertBack (s.list r.trapnum) r.out r.out)

theorem list_setHandler (callback data : UInt32) :
    (s.setHandler r.out
      { s.handlers r.out with callback := callback, data := data }).list n =
      s.list n := by
  unfold State.list State.setHandler
  congr 1 <;> funext node <;> by_cases h : node = r.out <;> simp [h]

theorem list_listed : (listed s r).list r.trapnum =
    listInsertBack (s.list r.trapnum) r.out r.out := by
  unfold listed
  rw [list_withList, list_setHandler]

/-- Only a handler whose links have changed loses its seal. -/
theorem sealed_listed {other : UInt32} (hother : other ≠ r.out)
    (hinserts : Inserts (s.list r.trapnum) ((listed s r).list r.trapnum)
      nodes [] r.out r.out)
    (hlast : nodes.getLast? ≠ some other) (h : Sealed (s.handlers other)) :
    Sealed ((listed s r).handlers other) := by
  have hnext : ((listed s r).handlers other).next = (s.handlers other).next :=
    hinserts.next_other other hother.symm hlast
  have hprev : ((listed s r).handlers other).prev = (s.handlers other).prev :=
    hinserts.prev_other other hother.symm (by simp)
  have hdata : ((listed s r).handlers other).nodeData =
      (s.handlers other).nodeData := hinserts.data_other other hother.symm
  have hsame : (listed s r).handlers other = s.handlers other := by
    have hset := Function.update_of_ne hother
      { s.handlers r.out with callback := r.callback, data := r.data }
      s.handlers
    have hlisted : (listed s r).handlers other =
        { s.handlers other with
          next := ((listed s r).handlers other).next
          prev := ((listed s r).handlers other).prev
          nodeData := ((listed s r).handlers other).nodeData } := by
      simp [listed, State.withList, State.setHandler, hset]
    rw [hlisted, hnext, hprev, hdata]
  rwa [hsame]

/-- The nodes of a list lead to the handlers they lie in. -/
def Owned (s : State) (nodes : List UInt32) : Prop :=
  ∀ node ∈ nodes, (s.handlers node).nodeData = node

/-- The new handler is the last one, so only its predecessor is sealed again. -/
theorem register_eq
    (hinserts : Inserts (s.list r.trapnum) ((listed s r).list r.trapnum)
      nodes [] r.out r.out)
    (hnodes : Owned s nodes) (hout : r.out ∉ nodes) :
    register s r =
      match nodes.getLast? with
      | some last => ((listed s r).reseal r.out).reseal last
      | none => (listed s r).reseal r.out := by
  have hprev : ((listed s r).handlers r.out).prev = nodes.getLast? :=
    hinserts.prev_node
  have hnext : ((listed s r).handlers r.out).next = none :=
    hinserts.next_node
  have hregister : register s r =
      let s := (listed s r).reseal r.out
      let s :=
        match (s.handlers r.out).prev with
        | some node => s.reseal (s.handlers node).nodeData
        | none => s
      match (s.handlers r.out).next with
      | some node => s.reseal (s.handlers node).nodeData
      | none => s := rfl
  rw [hregister]
  simp only [prev_reseal, hprev]
  cases hlast : nodes.getLast? with
  | none => simp only [next_reseal, hnext]
  | some last =>
      have hmem := List.mem_of_getLast? hlast
      have hne := (ne_of_mem_of_not_mem hmem hout).symm
      have hdata : ((listed s r).handlers last).nodeData = last :=
        (hinserts.data_other last hne).trans (hnodes last hmem)
      simp only [next_reseal, hnext, nodeData_reseal, hdata]

theorem callback_listed (other : UInt32) :
    ((listed s r).handlers other).callback =
      if other = r.out then r.callback else (s.handlers other).callback := by
  by_cases h : other = r.out <;>
    simp [listed, State.withList, State.setHandler, h]

theorem data_listed (other : UInt32) :
    ((listed s r).handlers other).data =
      if other = r.out then r.data else (s.handlers other).data := by
  by_cases h : other = r.out <;>
    simp [listed, State.withList, State.setHandler, h]

theorem Reseals.appends (h : Reseals (listed s r) s')
    (hinserts : Inserts (s.list r.trapnum) ((listed s r).list r.trapnum)
      nodes [] r.out r.out)
    (hout : Sealed (s'.handlers r.out))
    (hlast : ∀ last, nodes.getLast? = some last →
      Sealed (s'.handlers last)) : Appends s s' nodes r where
  inserts := by
    rw [h.list_eq]
    exact hinserts
  traps_other n hn := by
    rw [h.traps_eq]
    exact Function.update_of_ne hn ..
  callback_out := by rw [h.callback_eq, callback_listed, if_pos rfl]
  data_out := by rw [h.data_eq, data_listed, if_pos rfl]
  callback_other other hother := by
    rw [h.callback_eq, callback_listed, if_neg hother]
  data_other other hother := by rw [h.data_eq, data_listed, if_neg hother]
  sealed_out := hout
  sealed_last := hlast
  sealed_other other hother hne hsealed :=
    h.sealed other (sealed_listed hother hinserts hne hsealed)

theorem register_appends (h : Represents (s.list r.trapnum) nodes)
    (hnodes : Owned s nodes) (hout : r.out ∉ nodes) :
    Appends s (register s r) nodes r := by
  have hinserts : Inserts (s.list r.trapnum) ((listed s r).list r.trapnum)
      nodes [] r.out r.out := by
    rw [list_listed]
    exact listInsertBack_inserts h hout
  have hfirst := reseals_reseal (listed s r) r.out
  rw [register_eq hinserts hnodes hout]
  cases hlast : nodes.getLast? with
  | none =>
      refine hfirst.appends hinserts sealed_reseal ?_
      rw [hlast]
      rintro _ ⟨⟩
  | some last =>
      have hsecond := reseals_reseal ((listed s r).reseal r.out) last
      refine (hfirst.trans hsecond).appends hinserts sealed_reseal.reseal ?_
      rw [hlast]
      rintro _ ⟨⟩
      exact sealed_reseal

end Register

section Run

variable {s : State} {n : Fin trapCount} {rs : List Registration}
  {r : Registration}

def handlersFor (n : Fin trapCount) (rs : List Registration) : List UInt32 :=
  (registeredFor n rs).map Registration.out

/-- A handler holds what it was registered with, under a matching checksum. -/
structure Holds (handler : TrapHandler) (r : Registration) : Prop where
  callback_eq : handler.callback = r.callback
  data_eq : handler.data = r.data
  nodeData_eq : handler.nodeData = r.out
  sealed : Sealed handler

/-- Every list has the handlers registered for its trap. -/
structure Registered (s : State) (rs : List Registration) : Prop where
  nodup : (rs.map Registration.out).Nodup
  represents : ∀ n, Represents (s.list n) (handlersFor n rs)
  holds : ∀ r ∈ rs, Holds (s.handlers r.out) r

theorem mem_handlersFor {handler : UInt32} :
    handler ∈ handlersFor n rs ↔
      ∃ r ∈ rs, r.trapnum = n ∧ r.out = handler := by
  simp [handlersFor, registeredFor, and_assoc]

theorem handlersFor_concat (n : Fin trapCount) (rs : List Registration)
    (r : Registration) :
    handlersFor n (rs ++ [r]) =
      if r.trapnum = n then handlersFor n rs ++ [r.out]
      else handlersFor n rs := by
  by_cases h : r.trapnum = n <;> simp [handlersFor, registeredFor, h]

theorem boot_registered (handlers : UInt32 → TrapHandler) :
    Registered (State.boot handlers) [] where
  nodup := List.nodup_nil
  represents _ := ⟨List.nodup_nil, rfl, rfl, linked_nil none none⟩
  holds _ hr := absurd hr (List.not_mem_nil)

/-- A handler object is in one list at most. -/
theorem Registered.apart (h : Registered s rs) {n' : Fin trapCount}
    (hn : n ≠ n') {handler : UInt32} (hmem : handler ∈ handlersFor n rs) :
    handler ∉ handlersFor n' rs := by
  intro hmem'
  obtain ⟨r, hr, hrn, hrout⟩ := mem_handlersFor.1 hmem
  obtain ⟨r', hr', hrn', hrout'⟩ := mem_handlersFor.1 hmem'
  have hrr : r = r' :=
    List.inj_on_of_nodup_map h.nodup hr hr' (hrout.trans hrout'.symm)
  exact hn (hrn.symm.trans (hrr ▸ hrn'))

theorem Registered.owned (h : Registered s rs) (n : Fin trapCount) :
    Owned s (handlersFor n rs) := by
  intro node hnode
  obtain ⟨r, hr, -, rfl⟩ := mem_handlersFor.1 hnode
  exact (h.holds r hr).nodeData_eq

/-- A list of another trap keeps its links. -/
theorem Appends.represents_other {s' : State} {nodes others : List UInt32}
    (happends : Appends s s' nodes r) (hn : n ≠ r.trapnum)
    (hothers : Represents (s.list n) others)
    (hapart : ∀ other ∈ others, other ∉ nodes ∧ other ≠ r.out) :
    Represents (s'.list n) others where
  nodup := hothers.nodup
  front_eq := by
    rw [← hothers.front_eq]
    exact congrArg ListHead.front (happends.traps_other n hn)
  back_eq := by
    rw [← hothers.back_eq]
    exact congrArg ListHead.back (happends.traps_other n hn)
  linked := by
    have hlinks : ∀ other ∈ others,
        (s'.list n).next other = (s.list n).next other ∧
          (s'.list n).prev other = (s.list n).prev other := by
      intro other hother
      obtain ⟨hnodes, hout⟩ := hapart other hother
      refine happends.inserts.links_other ?_
      simp [hnodes, hout]
    exact hothers.linked.congr (fun other hother => (hlinks other hother).1)
      (fun other hother => (hlinks other hother).2)

theorem Registered.register (h : Registered s rs)
    (hout : r.out ∉ rs.map Registration.out) :
    Registered (register s r) (rs ++ [r]) := by
  have hnot : ∀ n, r.out ∉ handlersFor n rs := by
    intro n hmem
    obtain ⟨other, hother, -, heq⟩ := mem_handlersFor.1 hmem
    exact hout (heq ▸ List.mem_map_of_mem hother)
  have happends := register_appends (h.represents r.trapnum)
    (h.owned r.trapnum) (hnot r.trapnum)
  refine ⟨?_, fun n => ?_, fun other hother => ?_⟩
  · rw [List.map_append, List.map_singleton]
    exact List.nodup_append_comm.1 (List.nodup_cons.2 ⟨hout, h.nodup⟩)
  · rw [handlersFor_concat]
    split_ifs with hn
    · subst hn
      refine happends.inserts.represents ?_ ?_
      · rw [List.append_nil]
        exact h.represents r.trapnum
      · rw [List.append_nil]
        exact hnot r.trapnum
    · refine happends.represents_other (Ne.symm hn) (h.represents n) ?_
      intro other hother
      exact ⟨h.apart (Ne.symm hn) hother, ne_of_mem_of_not_mem hother (hnot n)⟩
  · rcases List.mem_append.1 hother with hold | hnew
    · have hne : other.out ≠ r.out :=
        ne_of_mem_of_not_mem (List.mem_map_of_mem hold) hout
      have hholds := h.holds other hold
      refine ⟨?_, ?_, ?_, ?_⟩
      · rw [happends.callback_other _ hne, hholds.callback_eq]
      · rw [happends.data_other _ hne, hholds.data_eq]
      · exact (happends.inserts.data_other _ hne.symm).trans hholds.nodeData_eq
      · by_cases hlast :
          (handlersFor r.trapnum rs).getLast? = some other.out
        · exact happends.sealed_last _ hlast
        · exact happends.sealed_other _ hne hlast hholds.sealed
    · rw [List.mem_singleton.1 hnew]
      exact ⟨happends.callback_out, happends.data_out,
        happends.inserts.data_node, happends.sealed_out⟩

theorem registerAll_registered (handlers : UInt32 → TrapHandler)
    (hdistinct : (rs.map Registration.out).Nodup) :
    Registered (registerAll (State.boot handlers) rs) rs := by
  induction rs using List.reverseRecOn with
  | nil => exact boot_registered handlers
  | append_singleton rs r ih =>
      rw [List.map_append, List.map_singleton] at hdistinct
      obtain ⟨hrs, -, hapart⟩ := List.nodup_append.1 hdistinct
      have hout : r.out ∉ rs.map Registration.out := by
        intro hmem
        exact hapart _ hmem _ (List.mem_singleton_self r.out) rfl
      have hrun : registerAll (State.boot handlers) (rs ++ [r]) =
          TrapManager.register (registerAll (State.boot handlers) rs) r := by
        rw [registerAll, List.foldl_append]
        rfl
      rw [hrun]
      exact (ih hrs).register hout

end Run

section Dispatch

variable {s : State} {n : Fin trapCount} {rs : List Registration}

def Registration.report (r : Registration) (trapnum : ℤ) (trapframe : UInt32) :
    Report :=
  .called r.callback trapnum trapframe r.data

theorem Holds.trapHandler {handler : TrapHandler} {r : Registration}
    (h : Holds handler r) (trapnum : ℤ) (trapframe : UInt32) :
    trapHandler trapnum trapframe handler = r.report trapnum trapframe := by
  have hsealed : calculateChecksum handler = handler.checksum := h.sealed.symm
  rw [TrapManager.trapHandler, hsealed, if_neg (not_not.2 rfl), h.callback_eq,
    h.data_eq]
  rfl

theorem forEachHandler_eq {trapnum : ℤ} {trapframe : UInt32}
    {start : Option UInt32} {fuel : ℕ}
    (hfollows : Follows (fun handler => (s.handlers handler).next) start
      (rs.map Registration.out))
    (hholds : ∀ r ∈ rs, Holds (s.handlers r.out) r)
    (hfuel : rs.length ≤ fuel) :
    forEachHandler s trapnum trapframe fuel start =
      some (rs.map fun r => r.report trapnum trapframe) := by
  induction rs generalizing start fuel with
  | nil =>
      rw [show start = none from hfollows]
      cases fuel <;> rfl
  | cons r rest ih =>
      obtain ⟨rfl, hrest⟩ := hfollows
      have hr := hholds r List.mem_cons_self
      cases fuel with
      | zero => exact absurd hfuel (Nat.not_succ_le_zero rest.length)
      | succ fuel =>
          have hrest := ih hrest
            (fun other hother => hholds other (List.mem_cons_of_mem r hother))
            (Nat.le_of_succ_le_succ hfuel)
          have hcall := hr.trapHandler trapnum trapframe
          rw [forEachHandler, hr.nodeData_eq, hcall, hrest]
          rfl

theorem Registered.trapmanagerTrap (h : Registered s rs)
    {fuel : ℕ} (hfuel : rs.length ≤ fuel) (n : Fin trapCount)
    (trapframe : UInt32) :
    trapmanagerTrap s fuel n trapframe =
      some (if registeredFor n rs = [] then [.noHandler n]
        else (registeredFor n rs).map fun r => r.report n trapframe) := by
  have hrange : ¬ ((trapCount : ℕ) : ℤ) ≤ ((n : ℕ) : ℤ) := by
    have := n.isLt
    omega
  have hindex : 0 ≤ ((n : ℕ) : ℤ) ∧ ((n : ℕ) : ℤ).toNat < trapCount :=
    ⟨Int.natCast_nonneg _, by simp⟩
  have hfront : (s.traps ⟨((n : ℕ) : ℤ).toNat, hindex.2⟩).front =
      (handlersFor n rs).head? := (h.represents n).front_eq
  have hfollows : Follows (fun handler => (s.handlers handler).next)
      (handlersFor n rs).head? (handlersFor n rs) :=
    (h.represents n).linked.follows
  have hsub : ∀ r ∈ registeredFor n rs, r ∈ rs :=
    fun r hr => (List.mem_filter.1 hr).1
  have hlength : (registeredFor n rs).length ≤ fuel :=
    (List.length_filter_le _ rs).trans hfuel
  rw [TrapManager.trapmanagerTrap, if_neg hrange, dif_pos hindex, hfront]
  cases hregistered : registeredFor n rs with
  | nil => simp [handlersFor, hregistered]
  | cons r rest =>
      have hhead : (handlersFor n rs).head? = some r.out := by
        simp [handlersFor, hregistered]
      have hloop : forEachHandler s n trapframe fuel (handlersFor n rs).head? =
          some ((registeredFor n rs).map fun r => r.report n trapframe) :=
        forEachHandler_eq hfollows (fun r hr => h.holds r (hsub r hr)) hlength
      rw [hhead] at hloop ⊢
      rw [if_neg (List.cons_ne_nil r rest), ← hregistered]
      exact hloop

/-- After every part of a sequence of registrations the handlers are sealed,
and a trap calls those which are registered for it, in their order. -/
theorem registrations_dispatched (handlers : UInt32 → TrapHandler)
    (rs : List Registration) (hdistinct : (rs.map Registration.out).Nodup)
    (done : List Registration) (hdone : done <+: rs) :
    (∀ r ∈ done,
      Sealed ((registerAll (State.boot handlers) done).handlers r.out)) ∧
    ∀ (n : Fin trapCount) (trapframe : UInt32) (fuel : ℕ),
      done.length ≤ fuel →
        trapmanagerTrap (registerAll (State.boot handlers) done) fuel n
            trapframe =
          some (if registeredFor n done = [] then [.noHandler n]
            else (registeredFor n done).map fun r =>
              r.report n trapframe) := by
  have hnodup : (done.map Registration.out).Nodup :=
    hdistinct.sublist (hdone.sublist.map Registration.out)
  have hregistered := registerAll_registered handlers hnodup
  refine ⟨fun r hr => (hregistered.holds r hr).sealed, ?_⟩
  intro n trapframe fuel hfuel
  exact hregistered.trapmanagerTrap hfuel n trapframe

/-- The page fault handler and two handlers of the timer's trap. -/
theorem registrations_dispatched_timer :
    let handlers := fun _ => ⟨0, 0, 0, none, none, 0⟩
    let rs : List Registration := [⟨0x2000, 32, 0x100, 1⟩,
      ⟨0x3000, 14, 0x200, 2⟩, ⟨0x4000, 32, 0x300, 3⟩]
    (∀ r ∈ rs,
      Sealed ((registerAll (State.boot handlers) rs).handlers r.out)) ∧
    ∀ (n : Fin trapCount) (trapframe : UInt32) (fuel : ℕ), rs.length ≤ fuel →
      trapmanagerTrap (registerAll (State.boot handlers) rs) fuel n trapframe =
        some (if registeredFor n rs = [] then [.noHandler n]
          else (registeredFor n rs).map fun r => r.report n trapframe) :=
  registrations_dispatched (fun _ => ⟨0, 0, 0, none, none, 0⟩)
    [⟨0x2000, 32, 0x100, 1⟩, ⟨0x3000, 14, 0x200, 2⟩, ⟨0x4000, 32, 0x300, 3⟩]
    (by decide) _ List.prefix_rfl

end Dispatch

end Yjkos.TrapManager
