import Yjkos.RingFifo
import Yjkos.Machine

/-!
# Queues

`kernel/lib/queue.c`: a queue of items of one size in an array of bytes.  The
array has room for `cap` items, so no offset into it wraps.
-/

namespace Yjkos

/-- `struct queue`, with the array which `buf` points to. -/
structure Queue where
  buf : List (BitVec 8)
  enqueueIndex : ℕ
  dequeueIndex : ℕ
  itemSize : ℕ
  cap : ℕ
  lastWasEnqueue : Bool

namespace Queue

def init (buf : List (BitVec 8)) (itemsize cap : ℕ) : Queue where
  buf := buf
  enqueueIndex := 0
  dequeueIndex := 0
  itemSize := itemsize
  cap := cap
  lastWasEnqueue := false

def isFull (self : Queue) : Bool :=
  self.enqueueIndex == self.dequeueIndex && self.lastWasEnqueue

def isEmpty (self : Queue) : Bool :=
  self.enqueueIndex == self.dequeueIndex && !self.lastWasEnqueue

/-- `x % cap`. -/
def remainder (x cap : ℕ) : Except Fault ℕ :=
  if cap = 0 then .error .divideByZero else .ok (x % cap)

/-- `vmemcpy` into the array. -/
def copyIn (buf : List (BitVec 8)) (pos : ℕ) (data : List (BitVec 8)) :
    Except Fault (List (BitVec 8)) :=
  if pos + data.length ≤ buf.length then
    .ok (buf.take pos ++ data ++ buf.drop (pos + data.length))
  else .error .outOfBounds

/-- `vmemcpy` out of the array. -/
def copyOut (buf : List (BitVec 8)) (pos size : ℕ) :
    Except Fault (List (BitVec 8)) :=
  if pos + size ≤ buf.length then .ok ((buf.drop pos).take size)
  else .error .outOfBounds

/-- `QUEUE_ENQUEUE` of the bytes of an item. -/
def enqueue (self : Queue) (data : List (BitVec 8)) :
    Except Fault (Except Errno Unit × Queue) := do
  cAssert (data.length == self.itemSize) "itemsize == self->item_size"
  if self.isFull then .ok (.error .enomem, self)
  else do
    let enqueueindex ← remainder (self.enqueueIndex + 1) self.cap
    let buf ← copyIn self.buf (self.enqueueIndex * data.length) data
    .ok (.ok (), { self with
      buf
      enqueueIndex := enqueueindex
      lastWasEnqueue := true })

/-- `QUEUE_DEQUEUE` of an item of `itemsize` bytes, if there is one. -/
def dequeue (self : Queue) (itemsize : ℕ) :
    Except Fault (Option (List (BitVec 8)) × Queue) := do
  cAssert (itemsize == self.itemSize) "itemsize == self->item_size"
  if self.isEmpty then .ok (none, self)
  else do
    let dequeueindex ← remainder (self.dequeueIndex + 1) self.cap
    let data ← copyOut self.buf (self.dequeueIndex * itemsize) itemsize
    .ok (some data, { self with
      dequeueIndex := dequeueindex
      lastWasEnqueue := false })

/-- `queue_peek`: where the oldest item is in the array, if there is one. -/
def peek (self : Queue) (itemsize : ℕ) : Except Fault (Option ℕ) := do
  cAssert (itemsize == self.itemSize) "itemsize == self->item_size"
  if self.isEmpty then .ok none
  else .ok (some (self.dequeueIndex * itemsize))

/-- The bytes of an item in the array. -/
def slot (buf : List (BitVec 8)) (size i : ℕ) : List (BitVec 8) :=
  (buf.drop (i * size)).take size

/-- A queue with room for `cap` items of `size` bytes, which are these. -/
structure Stores (queue : Queue) (cap size : ℕ)
    (items : List (List (BitVec 8))) : Prop where
  cap_eq : queue.cap = cap
  itemSize_eq : queue.itemSize = size
  length_eq : queue.buf.length = cap * size
  ring : RingFifo.Holds (slot queue.buf size) cap queue.dequeueIndex
    queue.enqueueIndex queue.lastWasEnqueue items

variable {self self' : Queue} {cap size : ℕ} {items : List (List (BitVec 8))}
  {data : List (BitVec 8)}

theorem init_stores {buf : List (BitVec 8)} (hcap : 0 < cap)
    (hbuf : buf.length = cap * size) : Stores (init buf size cap) cap size [] :=
  ⟨rfl, rfl, hbuf, RingFifo.holds_empty _ hcap⟩

theorem Stores.unique {items' : List (List (BitVec 8))}
    (h : Stores self cap size items) (h' : Stores self cap size items') :
    items = items' := h.ring.unique h'.ring

theorem slot_end_le {i : ℕ} (hi : i < cap) : i * size + size ≤ cap * size := by
  rw [← Nat.succ_mul]
  exact Nat.mul_le_mul_right size hi

/-- The array behind `vmemcpy`, byte for byte. -/
theorem copyIn_ok {buf : List (BitVec 8)} {pos : ℕ}
    (h : pos + data.length ≤ buf.length) : ∃ buf', copyIn buf pos data =
      .ok buf' ∧ buf'.length = buf.length ∧
      ∀ p, buf'[p]? = if pos ≤ p ∧ p < pos + data.length then data[p - pos]?
        else buf[p]? := by
  refine ⟨_, if_pos h, ?_, ?_⟩
  · simp only [List.length_append, List.length_take, List.length_drop]
    omega
  · intro p
    have htake : (buf.take pos).length = pos := by
      rw [List.length_take, min_eq_left (by omega)]
    rcases Nat.lt_or_ge p pos with hbefore | hbehind
    · rw [if_neg (by omega), List.append_assoc,
        List.getElem?_append_left (by omega), List.getElem?_take_of_lt hbefore]
    · rw [List.append_assoc, List.getElem?_append_right (by omega), htake]
      rcases Nat.lt_or_ge p (pos + data.length) with hinside | hbeyond
      · rw [if_pos ⟨hbehind, hinside⟩, List.getElem?_append_left (by omega)]
      · rw [if_neg (by omega), List.getElem?_append_right (by omega),
          List.getElem?_drop]
        congr 1
        omega

theorem getElem?_slot (buf : List (BitVec 8)) (size i p : ℕ) :
    (slot buf size i)[p]? = if p < size then buf[i * size + p]? else none := by
  unfold slot
  rw [List.getElem?_take]
  split
  next => rw [List.getElem?_drop]
  next => rfl

theorem copyIn_slot {buf : List (BitVec 8)} {i : ℕ}
    (h : i * data.length + data.length ≤ buf.length) : ∃ buf',
      copyIn buf (i * data.length) data = .ok buf' ∧
      buf'.length = buf.length ∧ slot buf' data.length i = data ∧
      ∀ j ≠ i, slot buf' data.length j = slot buf data.length j := by
  obtain ⟨buf', hcopy, hlength, hbytes⟩ := copyIn_ok h
  refine ⟨buf', hcopy, hlength, ?_, ?_⟩
  · apply List.ext_getElem?
    intro p
    rw [getElem?_slot, hbytes]
    split
    next hp => rw [if_pos ⟨by omega, by omega⟩, Nat.add_sub_cancel_left]
    next hp => rw [List.getElem?_eq_none (by omega)]
  · intro j hj
    apply List.ext_getElem?
    intro p
    rw [getElem?_slot, getElem?_slot]
    split
    next hp =>
      rw [hbytes, if_neg]
      rintro ⟨hle, hlt⟩
      -- The slots of two indices do not overlap.
      rcases Nat.lt_or_gt_of_ne hj with hbefore | hbehind
      · have := Nat.mul_le_mul_right data.length hbefore
        rw [Nat.succ_mul] at this
        omega
      · have := Nat.mul_le_mul_right data.length hbehind
        rw [Nat.succ_mul] at this
        omega
    next => rfl

theorem isFull_iff (h : Stores self cap size items) :
    self.isFull = true ↔ items.length = cap := by
  rw [← h.ring.full_iff, isFull, Bool.and_eq_true, beq_iff_eq,
    eq_comm (a := self.enqueueIndex)]

theorem isEmpty_iff (h : Stores self cap size items) :
    self.isEmpty = true ↔ items = [] := by
  rw [← h.ring.empty_iff, isEmpty, Bool.and_eq_true, beq_iff_eq,
    Bool.not_eq_true', eq_comm (a := self.enqueueIndex)]

theorem remainder_ok {x : ℕ} (hcap : 0 < cap) :
    remainder x cap = .ok (x % cap) := if_neg hcap.ne'

theorem enqueue_room (h : Stores self cap size items)
    (hdata : data.length = size) (hroom : items.length < cap) :
    ∃ self', self.enqueue data = .ok (.ok (), self') ∧
      Stores self' cap size (items ++ [data]) := by
  have hcap : 0 < cap := Nat.zero_lt_of_lt hroom
  have hfull : ¬ self.isFull = true := by
    rw [isFull_iff h]
    exact hroom.ne
  have hend : self.enqueueIndex * data.length + data.length ≤
      self.buf.length := by
    rw [h.length_eq, hdata]
    exact slot_end_le h.ring.next_lt
  obtain ⟨buf, hcopy, hlength, hslot, hothers⟩ := copyIn_slot hend
  rw [hdata] at hslot hothers
  have hring := h.ring.push hroom hothers
  rw [hslot] at hring
  refine ⟨{ self with
    buf
    enqueueIndex := (self.enqueueIndex + 1) % cap
    lastWasEnqueue := true }, ?_, h.cap_eq, h.itemSize_eq,
    hlength.trans h.length_eq, hring⟩
  unfold enqueue
  rw [cAssert_of (by simpa [h.itemSize_eq] using hdata), ok_bind, if_neg hfull,
    h.cap_eq, remainder_ok hcap, ok_bind, hcopy, ok_bind, ← h.cap_eq]

theorem enqueue_full (h : Stores self cap size items)
    (hdata : data.length = size) (hfull : items.length = cap) :
    self.enqueue data = .ok (.error .enomem, self) := by
  unfold enqueue
  rw [cAssert_of (by simpa [h.itemSize_eq] using hdata), ok_bind,
    if_pos ((isFull_iff h).2 hfull)]

theorem copyOut_first (h : Stores self cap size (data :: items)) :
    copyOut self.buf (self.dequeueIndex * size) size = .ok data := by
  have hend : self.dequeueIndex * size + size ≤ self.buf.length := by
    rw [h.length_eq]
    exact slot_end_le h.ring.first_lt
  rw [copyOut, if_pos hend, ← h.ring.pop.1]
  rfl

theorem dequeue_cons (h : Stores self cap size (data :: items)) :
    ∃ self', self.dequeue size = .ok (some data, self') ∧
      Stores self' cap size items := by
  have hcap : 0 < cap := Nat.zero_lt_of_lt h.ring.first_lt
  have hempty : ¬ self.isEmpty = true := by
    rw [isEmpty_iff h]
    nofun
  refine ⟨{ self with
    dequeueIndex := (self.dequeueIndex + 1) % cap
    lastWasEnqueue := false }, ?_, h.cap_eq, h.itemSize_eq, h.length_eq,
    h.ring.pop.2⟩
  unfold dequeue
  rw [cAssert_of (by simpa using h.itemSize_eq.symm), ok_bind, if_neg hempty,
    h.cap_eq, remainder_ok hcap, ok_bind, copyOut_first h, ok_bind, ← h.cap_eq]

theorem dequeue_nil (h : Stores self cap size []) :
    self.dequeue size = .ok (none, self) := by
  unfold dequeue
  rw [cAssert_of (by simpa using h.itemSize_eq.symm), ok_bind,
    if_pos ((isEmpty_iff h).2 rfl)]

theorem peek_cons (h : Stores self cap size (data :: items)) :
    self.peek size = .ok (some (self.dequeueIndex * size)) := by
  have hempty : ¬ self.isEmpty = true := by
    rw [isEmpty_iff h]
    nofun
  unfold peek
  rw [cAssert_of (by simpa using h.itemSize_eq.symm), ok_bind, if_neg hempty]

theorem peek_nil (h : Stores self cap size []) :
    self.peek size = .ok none := by
  unfold peek
  rw [cAssert_of (by simpa using h.itemSize_eq.symm), ok_bind,
    if_pos ((isEmpty_iff h).2 rfl)]

end Queue
end Yjkos
