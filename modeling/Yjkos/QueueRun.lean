import Yjkos.Queue

/-!
# Runs of a queue

The calls of a queue, taken one after another from `queue_init` on, answer as
those of a list of at most `cap` items, where items enter at the end and leave
at the front.
-/

namespace Yjkos
namespace Queue

/-- The calls on a queue, for any kind of items. -/
inductive Call (α : Type)
  | enqueue (data : α)
  | dequeue
  | peek

inductive Reply (α : Type)
  | enqueued (result : Except Errno Unit)
  | dequeued (item : Option α)
  | peeked (item : Option α)

/-- Whether a call with this reply has changed the queue. -/
def Reply.Changes {α : Type} : Reply α → Prop
  | .enqueued result => result = .ok ()
  | .dequeued item => item ≠ none
  | .peeked _ => False

section Fifo

variable {α : Type} {cap : ℕ} {items : List α}

/-- A list with at most `cap` items, the oldest first. -/
def fifoStep (cap : ℕ) (items : List α) : Call α → Reply α × List α
  | .enqueue data =>
      if items.length < cap then (.enqueued (.ok ()), items ++ [data])
      else (.enqueued (.error .enomem), items)
  | .dequeue => (.dequeued items.head?, items.tail)
  | .peek => (.peeked items.head?, items)

def fifoRun (cap : ℕ) : List α → List (Call α) → List (Reply α) × List α
  | items, [] => ([], items)
  | items, call :: calls =>
      let (reply, items) := fifoStep cap items call
      let (replies, items) := fifoRun cap items calls
      (reply :: replies, items)

end Fifo

/-- The bytes of an item. -/
abbrev Item := List (BitVec 8)

/-- Every item which is queued has the size of the queue's items. -/
def Call.Fits (size : ℕ) : Call Item → Prop
  | .enqueue data => data.length = size
  | _ => True

/-- One call, where the caller of `queue_peek` reads the item which it is
shown. -/
def step (self : Queue) (size : ℕ) :
    Call Item → Except Fault (Reply Item × Queue)
  | .enqueue data => do
      let (result, self) ← self.enqueue data
      .ok (.enqueued result, self)
  | .dequeue => do
      let (item, self) ← self.dequeue size
      .ok (.dequeued item, self)
  | .peek => do
      match ← self.peek size with
      | none => .ok (.peeked none, self)
      | some pos => do
          let item ← copyOut self.buf pos size
          .ok (.peeked (some item), self)

def run (self : Queue) (size : ℕ) :
    List (Call Item) → Except Fault (List (Reply Item) × Queue)
  | [] => .ok ([], self)
  | call :: calls => do
      let (reply, self) ← self.step size call
      let (replies, self) ← self.run size calls
      .ok (reply :: replies, self)

variable {self : Queue} {cap size : ℕ} {items : List Item}

theorem step_refines (h : Stores self cap size items) {call : Call Item}
    (hfits : call.Fits size) : ∃ self', self.step size call =
      .ok ((fifoStep cap items call).1, self') ∧
      Stores self' cap size (fifoStep cap items call).2 ∧
      (¬ (fifoStep cap items call).1.Changes → self' = self) := by
  cases call with
  | enqueue data =>
      by_cases hroom : items.length < cap
      · obtain ⟨self', henqueue, hstores⟩ := enqueue_room h hfits hroom
        simp only [fifoStep, if_pos hroom]
        refine ⟨self', ?_, hstores, fun hchanges => absurd rfl hchanges⟩
        simp only [step, henqueue, ok_bind]
      · have hfull : items.length = cap :=
          le_antisymm h.ring.length_le (Nat.le_of_not_lt hroom)
        simp only [fifoStep, if_neg hroom]
        refine ⟨self, ?_, h, fun _ => rfl⟩
        simp only [step, enqueue_full h hfits hfull, ok_bind]
  | dequeue =>
      cases items with
      | nil =>
          refine ⟨self, ?_, h, fun _ => rfl⟩
          simp only [step, dequeue_nil h, ok_bind]
          rfl
      | cons data rest =>
          obtain ⟨self', hdequeue, hstores⟩ := dequeue_cons h
          refine ⟨self', ?_, hstores, fun hchanges => absurd nofun hchanges⟩
          simp only [step, hdequeue, ok_bind]
          rfl
  | peek =>
      cases items with
      | nil =>
          refine ⟨self, ?_, h, fun _ => rfl⟩
          simp only [step, peek_nil h, ok_bind]
          rfl
      | cons data rest =>
          refine ⟨self, ?_, h, fun _ => rfl⟩
          simp only [step, peek_cons h, copyOut_first h, ok_bind]
          rfl

theorem run_refines (h : Stores self cap size items) {calls : List (Call Item)}
    (hfits : ∀ call ∈ calls, call.Fits size) : ∃ self', self.run size calls =
      .ok ((fifoRun cap items calls).1, self') ∧
      Stores self' cap size (fifoRun cap items calls).2 := by
  induction calls generalizing self items with
  | nil => exact ⟨self, rfl, h⟩
  | cons call calls ih =>
      obtain ⟨next, hstep, hnext, _⟩ :=
        step_refines h (hfits call List.mem_cons_self)
      obtain ⟨self', hrun, hself'⟩ :=
        ih hnext (fun c hc => hfits c (List.mem_cons_of_mem _ hc))
      refine ⟨self', ?_, hself'⟩
      simp only [run, hstep, ok_bind, hrun]
      rfl

/-- Every run of calls from `queue_init` on answers as the bounded list, and
after it every call which fails, and every `queue_peek`, leaves the queue as
it is. -/
theorem calls_refine_fifo (hcap : 1 ≤ cap) {buf : List (BitVec 8)}
    (hbuf : buf.length = cap * size) {calls : List (Call Item)}
    (hfits : ∀ call ∈ calls, call.Fits size) :
    ∃ self, (init buf size cap).run size calls =
        .ok ((fifoRun cap [] calls).1, self) ∧
      Stores self cap size (fifoRun cap [] calls).2 ∧
      (fifoRun cap [] calls).2.length ≤ cap ∧
      ∀ call : Call Item, call.Fits size → ∃ self', self.step size call =
        .ok ((fifoStep cap (fifoRun cap [] calls).2 call).1, self') ∧
        (¬ (fifoStep cap (fifoRun cap [] calls).2 call).1.Changes →
          self' = self) := by
  obtain ⟨self, hrun, hstores⟩ := run_refines (init_stores hcap hbuf) hfits
  refine ⟨self, hrun, hstores, hstores.ring.length_le, ?_⟩
  intro call hcall
  obtain ⟨self', hstep, _, hsame⟩ := step_refines hstores hcall
  exact ⟨self', hstep, hsame⟩

/-- Three items through a queue with room for two. -/
theorem three_items_through_two : ∃ self,
    (init [0, 0] 1 2).run 1 [.enqueue [1], .enqueue [2], .enqueue [3], .peek,
      .dequeue, .enqueue [3], .dequeue, .dequeue, .dequeue] =
    .ok ([.enqueued (.ok ()), .enqueued (.ok ()), .enqueued (.error .enomem),
      .peeked (some [1]), .dequeued (some [1]), .enqueued (.ok ()),
      .dequeued (some [2]), .dequeued (some [3]), .dequeued none], self) ∧
    self.isEmpty = true := by
  obtain ⟨self, hrun, hstores, _⟩ := @calls_refine_fifo 2 1 (by decide)
    [0, 0] rfl [.enqueue [1], .enqueue [2], .enqueue [3], .peek, .dequeue,
      .enqueue [3], .dequeue, .dequeue, .dequeue] (by simp [Call.Fits])
  exact ⟨self, hrun, (isEmpty_iff hstores).2 rfl⟩

end Queue
end Yjkos
