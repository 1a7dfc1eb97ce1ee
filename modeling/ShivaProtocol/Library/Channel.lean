import Mathlib.Data.List.Basic

/-!
# Bounded channels

A bounded first-in first-out channel with one sender and one receiver.  A channel carries its
history: the elements sent so far are the elements received so far followed by the elements in
the queue, and the queue never exceeds the capacity.  Both facts are fields of the channel, so
every operation keeps them.

The outcome of an attempt to send is not a function of the channel.  `Channel.trySend` says which
outcomes may occur: an element is accepted only below the capacity and while a receiver is left,
it is refused as `full` only at the capacity, and as `disconnected` only when no receiver is
left.  `Channel.recv` takes the first element of the queue; it reports the end of the stream only
when the queue is empty and no sender is left, and is not enabled on an empty queue before that.
-/

universe u

/-- The outcome of an attempt to send. -/
inductive SendResult where
  | ok
  | full
  | disconnected
  deriving DecidableEq, Repr

/-- A bounded channel with its history. -/
structure Channel (α : Type u) (capacity : ℕ) where
  queue : List α
  sent : List α
  received : List α
  /-- Whether a sender is left. -/
  sender : Bool
  /-- Whether a receiver is left. -/
  receiver : Bool
  length_le : queue.length ≤ capacity
  fifo : received ++ queue = sent

namespace Channel

variable {α : Type u} {capacity : ℕ}

/-- The new channel: nothing has been sent, and both ends are alive. -/
def bounded (α : Type u) (capacity : ℕ) : Channel α capacity where
  queue := []
  sent := []
  received := []
  sender := true
  receiver := true
  length_le := Nat.zero_le _
  fifo := rfl

/-- The channel after an attempt to send `x` with the given outcome, if the outcome may
occur. -/
def trySend (c : Channel α capacity) (x : α) : SendResult → Option (Channel α capacity)
  | .ok =>
      if h : c.receiver = true ∧ c.queue.length < capacity then
        some
          { c with
            queue := c.queue ++ [x]
            sent := c.sent ++ [x]
            length_le := by
              rw [List.length_append]
              apply h.2
            fifo := by rw [← List.append_assoc, c.fifo] }
      else none
  | .full => if c.queue.length = capacity then some c else none
  | .disconnected => if c.receiver = true then none else some c

/-- The element the receiver takes off the channel, or `none` at the end of the stream, and the
channel after that; not enabled on an empty queue while a sender is left. -/
def recv (c : Channel α capacity) : Option (Option α × Channel α capacity) :=
  match h : c.queue with
  | x :: q =>
      some (some x,
        { c with
          queue := q
          received := c.received ++ [x]
          length_le := by
            have hle := c.length_le
            rw [h, List.length_cons] at hle
            apply Nat.le_of_succ_le hle
          fifo := by
            have hfifo := c.fifo
            rw [h] at hfifo
            rw [List.append_assoc]
            apply hfifo })
  | [] => if c.sender = true then none else some (none, c)

/-- The channel after its sender is dropped. -/
def dropSender (c : Channel α capacity) : Channel α capacity :=
  { c with sender := false }

/-- The channel after its receiver is dropped. -/
def dropReceiver (c : Channel α capacity) : Channel α capacity :=
  { c with receiver := false }

/-- What an attempt to send does, by its outcome. -/
theorem trySend_cases {c d : Channel α capacity} {x : α} {r : SendResult}
    (h : c.trySend x r = some d) :
  (r = .ok ∧ c.receiver = true ∧ d.sent = c.sent ++ [x] ∧ d.received = c.received
    ∧ d.sender = c.sender ∧ d.receiver = c.receiver)
  ∨ (r = .full ∧ c.queue.length = capacity ∧ d = c)
  ∨ (r = .disconnected ∧ c.receiver = false ∧ d = c)
  := by
  cases r with
  | ok =>
      left
      rw [trySend] at h
      split at h
      · obtain rfl := Option.some.inj h
        simp_all
      · cases h
  | full =>
      right
      left
      rw [trySend] at h
      split at h
      · rename_i hlen
        exact ⟨rfl, hlen, (Option.some.inj h).symm⟩
      · cases h
  | disconnected =>
      right
      right
      rw [trySend] at h
      split at h
      · cases h
      · rename_i hr
        exact ⟨rfl, Bool.eq_false_iff.mpr hr, (Option.some.inj h).symm⟩

/-- From a queue that is not empty, an element can be received. -/
theorem exists_recv {c : Channel α capacity} (h : c.queue ≠ []) :
  ∃ x d, c.recv = some (some x, d)
  := by
  rw [recv]
  split
  · exact ⟨_, _, rfl⟩
  · rename_i hnil
    cases h hnil

/-- What receiving does: it takes the first element of the queue, or it reports the end of the
stream. -/
theorem recv_cases {c d : Channel α capacity} {o : Option α} (h : c.recv = some (o, d)) :
  (∃ x, o = some x ∧ c.queue = x :: d.queue ∧ d.sent = c.sent
    ∧ d.received = c.received ++ [x] ∧ d.sender = c.sender ∧ d.receiver = c.receiver)
  ∨ (o = none ∧ c.queue = [] ∧ c.sender = false ∧ d = c)
  := by
  rw [recv] at h
  split at h
  · rename_i x q hq
    left
    obtain ⟨rfl, rfl⟩ := Prod.mk.inj (Option.some.inj h)
    use x
  · rename_i hq
    right
    split at h
    · cases h
    · obtain ⟨rfl, rfl⟩ := Prod.mk.inj (Option.some.inj h)
      simp_all

end Channel
