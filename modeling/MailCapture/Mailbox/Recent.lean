import MailCapture.Message.Basic
import MailCapture.Fault

/-! A mailbox in memory.

It keeps the most recent messages, oldest first, and gives up the oldest when it is full. That it
never holds more than its capacity, and always has room for one, is part of the type. -/
namespace MailCapture

structure Recent where
  capacity : Nat
  messages : List Message := []
  capacity_pos : 0 < capacity
  length_le : messages.length ≤ capacity := by simp

namespace Recent

/-- How many messages a mailbox keeps unless told otherwise. -/
def defaultCapacity : Nat := 100

/-- Room for this many messages, or more, cannot be addressed. -/
def unaddressable : Nat := 0x1000000000000000

def empty (capacity : Nat) : Except Fault Recent :=
  if h : 0 < capacity then
    if capacity < unaddressable then .ok { capacity, capacity_pos := h }
    else .error .capacityOverflow
  else .error .noCapacity

/-- The messages that stay when one more comes. -/
def kept (r : Recent) : List Message :=
  if r.messages.length < r.capacity then r.messages else r.messages.tail

theorem length_kept_lt (r : Recent) : r.kept.length < r.capacity := by
  have hle := r.length_le
  have hpos := r.capacity_pos
  unfold kept
  split
  · assumption
  · rw [List.length_tail]
    omega

theorem length_push_le (r : Recent) (m : Message) : (r.kept ++ [m]).length ≤ r.capacity := by
  rw [List.length_append]
  exact r.length_kept_lt

def add (r : Recent) (m : Message) : Recent :=
  { r with messages := r.kept ++ [m], length_le := r.length_push_le m }

def clear (r : Recent) : Recent := {r with messages := [], length_le := by simp}

/-- Adding keeps as many of the newest messages as fit. -/
theorem messages_add (r : Recent) (m : Message) :
    (r.add m).messages =
      (r.messages ++ [m]).drop ((r.messages ++ [m]).length - r.capacity) := by
  have hle := r.length_le
  have hpos := r.capacity_pos
  by_cases h : r.messages.length < r.capacity
  · have : (r.messages ++ [m]).length - r.capacity = 0 := by simp; omega
    rw [this]
    simp [add, kept, h]
  · have hone : (r.messages ++ [m]).length - r.capacity = 1 := by simp; omega
    rw [hone]
    cases hm : r.messages with
    | nil => simp [hm] at h; omega
    | cons first rest =>
      rw [hm] at h
      have : r.capacity ≤ rest.length + 1 := by simpa using h
      simp [add, kept, hm, this]

end Recent
end MailCapture
