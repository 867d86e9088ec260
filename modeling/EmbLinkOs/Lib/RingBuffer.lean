import Mathlib

set_option autoImplicit false

/-! # Ring buffers

A ring of capacity `cap` keeps a queue in `cap` cells with a place to write, a place to read and a
count. `Holds cap r xs` says that the ring stands for the queue `xs`; pushing and popping, one at a
time or as many as fit, are then operations on that list. -/

/-- A ring over `α`. Only the cells below the capacity are used. -/
structure RingBuffer (α : Type*) where
  cells : Nat → α
  head : Nat
  tail : Nat
  count : Nat

namespace RingBuffer

open List

variable {α : Type*} (cap : Nat)

/-- A ring with nothing in it. -/
def empty (a : α) : RingBuffer α := ⟨fun _ => a, 0, 0, 0⟩

/-- Write one cell at the head. -/
def push (r : RingBuffer α) (a : α) : RingBuffer α :=
  { r with cells := Function.update r.cells r.head a, head := (r.head + 1) % cap, count := r.count + 1 }

/-- Take one cell off the tail. -/
def pop (r : RingBuffer α) : RingBuffer α := { r with tail := (r.tail + 1) % cap, count := r.count - 1 }

/-- Push while there is room, and how many were pushed. -/
def pushMany : List α → RingBuffer α → Nat × RingBuffer α
  | [], r => (0, r)
  | a :: as, r =>
    if r.count < cap then ((pushMany as (r.push cap a)).1 + 1, (pushMany as (r.push cap a)).2)
    else (0, r)

/-- Pop up to `n` cells, oldest first. -/
def popMany : Nat → RingBuffer α → List α × RingBuffer α
  | 0, r => ([], r)
  | n + 1, r =>
    if 0 < r.count then (r.cells r.tail :: (popMany n (r.pop cap)).1, (popMany n (r.pop cap)).2)
    else ([], r)

/-- The ring stands for the queue `xs`, oldest first. -/
structure Holds (r : RingBuffer α) (xs : List α) : Prop where
  count : r.count = xs.length
  room : xs.length ≤ cap
  tail : r.tail < cap
  head : r.head = (r.tail + xs.length) % cap
  cells : ∀ i (h : i < xs.length), r.cells ((r.tail + i) % cap) = xs[i]

variable {cap}

theorem holds_empty (hcap : 0 < cap) (a : α) : Holds cap (empty a) [] :=
  ⟨rfl, Nat.zero_le _, hcap, (Nat.zero_mod _).symm, fun _ h => absurd h (Nat.not_lt_zero _)⟩

/-- Two places of the queue are two cells. -/
theorem add_mod_inj {t i j : Nat} (hi : i < cap) (hj : j < cap) (h : (t + i) % cap = (t + j) % cap) :
    i = j :=
  (Nat.ModEq.add_left_cancel' t h).eq_of_lt_of_lt hi hj

variable {r : RingBuffer α} {xs : List α}

theorem Holds.push (h : Holds cap r xs) (hroom : xs.length < cap) (a : α) :
    Holds cap (r.push cap a) (xs ++ [a]) := by
  have hlen : (xs ++ [a]).length = xs.length + 1 := by simp
  refine ⟨by simp [RingBuffer.push, h.count], by omega, h.tail, ?_, fun i hi => ?_⟩
  · show (r.head + 1) % cap = _
    rw [h.head, hlen, Nat.mod_add_mod, Nat.add_assoc]
    rfl
  · show Function.update r.cells r.head a ((r.tail + i) % cap) = _
    by_cases hlt : i < xs.length
    · have hne : (r.tail + i) % cap ≠ r.head := by
        rw [h.head]
        intro he
        exact absurd (add_mod_inj (by omega) hroom he) (by omega)
      rw [Function.update_of_ne hne, h.cells i hlt, getElem_append_left hlt]
    · obtain rfl : i = xs.length := by omega
      rw [← h.head, Function.update_self]
      simp

theorem Holds.front {x : α} (h : Holds cap r (x :: xs)) : r.cells r.tail = x := by
  have h0 := h.cells 0 (by simp)
  rwa [Nat.add_zero, Nat.mod_eq_of_lt h.tail] at h0

theorem Holds.pop {x : α} (h : Holds cap r (x :: xs)) : Holds cap (r.pop cap) xs := by
  have hcount := h.count
  have hroom := h.room
  rw [length_cons] at hcount hroom
  have hcap : 0 < cap := by omega
  refine ⟨?_, by omega, Nat.mod_lt _ hcap, ?_, fun i hi => ?_⟩
  · show r.count - 1 = _
    omega
  · show r.head = ((r.tail + 1) % cap + xs.length) % cap
    rw [h.head, length_cons, Nat.mod_add_mod, Nat.add_right_comm, Nat.add_assoc]
  · show r.cells (((r.tail + 1) % cap + i) % cap) = _
    have hi' := h.cells (i + 1) (by simpa using hi)
    rw [Nat.mod_add_mod, Nat.add_right_comm, Nat.add_assoc, hi', getElem_cons_succ]

/-- As many are pushed as there is room for. -/
theorem Holds.pushMany (h : Holds cap r xs) (as : List α) :
    (RingBuffer.pushMany cap as r).1 = min as.length (cap - xs.length) ∧
      Holds cap (RingBuffer.pushMany cap as r).2 (xs ++ as.take (cap - xs.length)) := by
  induction as generalizing r xs with
  | nil => simpa [RingBuffer.pushMany] using h
  | cons a as ih =>
    have hcount := h.count
    have hroom := h.room
    unfold RingBuffer.pushMany
    by_cases hlt : r.count < cap
    · rw [if_pos hlt]
      obtain ⟨h1, h2⟩ := ih (h.push (by omega) a)
      obtain ⟨k, hk⟩ : ∃ k, cap - xs.length = k + 1 := ⟨cap - xs.length - 1, by omega⟩
      have hk' : cap - (xs ++ [a]).length = k := by
        rw [length_append, length_singleton]
        omega
      rw [hk'] at h1 h2
      rw [hk, take_succ_cons, length_cons]
      refine ⟨?_, by simpa using h2⟩
      show _ + 1 = _
      rw [h1]
      omega
    · rw [if_neg hlt, show cap - xs.length = 0 by omega]
      simpa using h

/-- What is popped is the front of the queue. -/
theorem Holds.popMany (h : Holds cap r xs) (n : Nat) :
    (RingBuffer.popMany cap n r).1 = xs.take n ∧ Holds cap (RingBuffer.popMany cap n r).2 (xs.drop n) := by
  induction n generalizing r xs with
  | zero => exact ⟨rfl, h⟩
  | succ n ih =>
    unfold RingBuffer.popMany
    cases xs with
    | nil =>
      rw [if_neg (by simp [h.count])]
      exact ⟨rfl, h⟩
    | cons x xs =>
      rw [if_pos (by simp [h.count])]
      obtain ⟨h1, h2⟩ := ih h.pop
      refine ⟨?_, h2⟩
      show _ :: _ = _
      rw [h1, h.front, take_succ_cons]

end RingBuffer
