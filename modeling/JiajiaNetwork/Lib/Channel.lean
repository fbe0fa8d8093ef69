/- A channel from one sender to one reader: what was sent, what was read of it, and whether the
   sender has finished. -/
import Mathlib.Data.List.Infix
import Mathlib.Tactic.Common

set_option autoImplicit false
set_option relaxedAutoImplicit false

namespace JiajiaNetwork.Lib

universe u

structure Channel (α : Type u) where
  sent : List α
  read : List α
  finished : Bool
  /-- Items are read in the order in which they were sent. -/
  order : read <+: sent

namespace Channel

variable {α : Type u} {x : Channel α}

def empty : Channel α := ⟨[], [], false, List.prefix_refl []⟩

def unread (x : Channel α) : List α := x.sent.drop x.read.length

theorem read_append_unread (x : Channel α) : x.read ++ x.unread = x.sent := by
  obtain ⟨rest, split⟩ := x.order
  rw [unread, ← split, List.drop_left]

/-- More items go in. -/
@[simps sent read finished]
def send (x : Channel α) (new : List α) : Channel α where
  sent := x.sent ++ new
  read := x.read
  finished := x.finished
  order := x.order.trans (List.prefix_append x.sent new)

theorem unread_send (new : List α) : (x.send new).unread = x.unread ++ new := by
  simp only [unread, send_sent, send_read]
  exact List.drop_append_of_le_length x.order.length_le

@[simps sent read finished]
def finish (x : Channel α) : Channel α where
  sent := x.sent
  read := x.read
  finished := true
  order := x.order

/-- The next `n` items are read, or all that are left. -/
@[simps sent read finished]
def consume (x : Channel α) (n : Nat) : Channel α where
  sent := x.sent
  read := x.read ++ x.unread.take n
  finished := x.finished
  order := by
    rw [← x.read_append_unread]
    exact (List.prefix_append_right_inj x.read).mpr (List.take_prefix n x.unread)

theorem unread_consume (n : Nat) : (x.consume n).unread = x.unread.drop n := by
  have whole := (x.consume n).read_append_unread
  rw [consume_read, consume_sent, ← x.read_append_unread, List.append_assoc] at whole
  have rest := List.append_cancel_left whole
  nth_rewrite 2 [← List.take_append_drop n x.unread] at rest
  exact List.append_cancel_left rest

/-- What one read may return: items that come next, and none of them only at the end. -/
def Yields (x : Channel α) (items : List α) : Prop :=
  items <+: x.unread ∧ (items = [] → x.unread = [] ∧ x.finished = true)

instance [DecidableEq α] (x : Channel α) (items : List α) : Decidable (x.Yields items) :=
  inferInstanceAs (Decidable (_ ∧ _))

theorem Yields.read {items : List α} (yields : x.Yields items) :
    (x.consume items.length).read = x.read ++ items := by
  obtain ⟨rest, next⟩ := yields.1
  rw [consume_read, ← next, List.take_left]

/-- The sender has finished and everything was read. -/
structure Exhausted (x : Channel α) : Prop where
  finished : x.finished = true
  unread : x.unread = []

theorem Exhausted.read_eq_sent (h : x.Exhausted) : x.read = x.sent := by
  rw [← x.read_append_unread, h.unread, List.append_nil]

theorem Exhausted.consume (h : x.Exhausted) (n : Nat) : (x.consume n).Exhausted where
  finished := h.finished
  unread := by rw [unread_consume, h.unread, List.drop_nil]

end Channel

end JiajiaNetwork.Lib
