/-
  A broadcast channel with a bounded buffer, seen by one receiver.

  The sender never waits: the buffer keeps the last `cap` messages, and a message that is overwritten
  before the receiver has got it is lost.  The receiver then gets, once, a notice of how many it has
  missed, and goes on with the oldest message that is left.

  `pending` are the messages the receiver has not got yet, lost ones included.

  * `recv_msg` — without loss the receiver gets the first of the pending messages;
  * `recv_lagged` — with loss it gets a notice, and of the pending messages the last `cap` are left.
-/
import Mathlib

set_option linter.unusedVariables false

namespace RdRs.Broadcast

variable {α : Type*}

/-- What was sent, and the number of the message the receiver gets next. -/
structure Chan (α : Type*) where
  sent : List α
  next : Nat

/-- What the receiver gets. -/
inductive Received (α : Type*) where
  | msg (a : α)
  | lagged (missed : Nat)

namespace Chan

/-- Nothing sent yet. -/
def empty : Chan α := ⟨[], 0⟩

def send (c : Chan α) (a : α) : Chan α := { c with sent := c.sent ++ [a] }

/-- The messages the receiver has not got. -/
def pending (c : Chan α) : List α := c.sent.drop c.next

/-- The pending messages that are overwritten. -/
def lost (cap : Nat) (c : Chan α) : List α := c.pending.take (c.pending.length - cap)

/-- The pending messages that the buffer still has. -/
def kept (cap : Nat) (c : Chan α) : List α := c.pending.drop (c.pending.length - cap)

/-- `recv`; `none` is a receiver that waits. -/
def recv (cap : Nat) (c : Chan α) : Option (Received α × Chan α) :=
  if c.next + cap < c.sent.length then
    some (.lagged (c.sent.length - cap - c.next), { c with next := c.sent.length - cap })
  else c.sent[c.next]?.map fun a => (.msg a, { c with next := c.next + 1 })

/-- The receiver is not ahead of the sender. -/
def Wf (c : Chan α) : Prop := c.next ≤ c.sent.length

variable {c c' : Chan α} {a : α} {cap : Nat}

theorem empty_wf : (empty : Chan α).Wf := le_rfl

theorem send_wf (h : c.Wf) (a : α) : (c.send a).Wf := by
  show c.next ≤ (c.sent ++ [a]).length
  rw [List.length_append]
  exact Nat.le_add_right_of_le h

@[simp] theorem pending_empty : (empty : Chan α).pending = [] := rfl

/-- A message that is sent is the last of the pending ones. -/
theorem pending_send (h : c.Wf) (a : α) : (c.send a).pending = c.pending ++ [a] :=
  List.drop_append_of_le_length h

/-- **Without loss, messages come in order.** -/
theorem recv_msg (h : recv cap c = some (.msg a, c')) : c.pending = a :: c'.pending ∧ c'.Wf := by
  rw [recv] at h
  split at h
  · exact absurd (congrArg Prod.fst (Option.some.inj h)) (by simp)
  · obtain ⟨b, hb, heq⟩ := Option.map_eq_some_iff.mp h
    obtain ⟨hmsg, rfl⟩ := Prod.mk.inj heq
    obtain rfl := Received.msg.inj hmsg
    obtain ⟨hlt, hget⟩ := List.getElem?_eq_some_iff.mp hb
    refine ⟨?_, hlt⟩
    rw [pending, List.drop_eq_getElem_cons hlt, hget]
    rfl

theorem pending_eq_lost_append (cap : Nat) (c : Chan α) : c.pending = c.lost cap ++ c.kept cap :=
  (List.take_append_drop _ _).symm

/-- **A receiver that lags goes on with what is left.** -/
theorem recv_lagged {missed : Nat} (h : recv cap c = some (.lagged missed, c')) :
    c'.pending = c.kept cap ∧ c'.Wf := by
  rw [recv] at h
  split at h
  · rename_i hlt
    obtain rfl := (Prod.mk.inj (Option.some.inj h)).2
    refine ⟨?_, Nat.sub_le _ _⟩
    have hlen : c.pending.length = c.sent.length - c.next := List.length_drop ..
    rw [kept, hlen, pending, pending, List.drop_drop]
    congr 1
    show c.sent.length - cap = c.next + (c.sent.length - c.next - cap)
    omega
  · obtain ⟨b, -, hb⟩ := Option.map_eq_some_iff.mp h
    exact absurd (congrArg Prod.fst hb) (by simp)

/-- A receiver that is behind by more than the buffer holds lags. -/
theorem recv_behind (h : c.next + cap < c.sent.length) : recv cap c =
    some (.lagged (c.sent.length - cap - c.next), ⟨c.sent, c.sent.length - cap⟩) := if_pos h

/-- A receiver that does not lag gets the next message. -/
theorem recv_next {n : Nat} {sent : List α} (hcap : sent.length ≤ n + cap) (ha : sent[n]? = some a) :
    recv cap ⟨sent, n⟩ = some (.msg a, ⟨sent, n + 1⟩) := by
  rw [recv]
  dsimp only
  rw [if_neg (by omega), ha]
  rfl

end Chan

end RdRs.Broadcast
