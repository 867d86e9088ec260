import EmbLinkOs.Lib.Prog
import EmbLinkOs.Embkfs.Format

set_option autoImplicit false

/-! # The block device

A device with a volatile write cache: `durable` is what a power loss leaves, `pending` the writes
accepted since the last successful flush, and a read sees the newest write. Blocks are file-system
blocks; `size` of them fit on the device and the block layer refuses any access beyond with
`-EMBK_ERANGE`.

Faults are inputs of the model. A read takes the next entry of `readTape` (an exhausted tape means
that no further read fails); the reads made while the block bit map is being rebuilt take theirs
from `rebuildTape`, so that one can speak of faults inside and outside a rebuild. A write or a flush
asks `oracle`, which sees everything requested of the device so far and may answer with any error
code. A failed write reaches neither the cache nor
the medium, and a failed flush makes nothing durable. `log` records the requests with their
outcome, newest first. -/

namespace EmbLinkOs.Embkfs

open List
open Prog hiding bind

variable {α : Type}

/-- A request that may change the medium. -/
inductive Req (α : Type)
  | write (b : Nat) (x : Block α)
  | flush

structure Device (α : Type) where
  size : Nat
  durable : Nat → Block α
  /-- Accepted since the last successful flush, newest first. -/
  pending : List (Nat × Block α)
  log : List (Req α × Option Errno)
  oracle : List (Req α × Option Errno) → Req α → Option Errno
  readTape : List (Option Errno)
  rebuildTape : List (Option Errno)

namespace Device

/-- What the newest accepted write, or else the medium, holds at `b`. -/
def cur (d : Device α) (b : Nat) : Block α :=
  match d.pending.find? (fun w => w.1 = b) with
  | some w => w.2
  | none => d.durable b

/-- What a fault-free read of block `b` returns; `none` beyond the end of the device. -/
def view (d : Device α) (b : Nat) : Option (Block α) :=
  if b < d.size then some (d.cur b) else none

/-- `embk_block_read` of one file-system block. -/
def read (b : Nat) : Prog (Device α) Errno (Block α) := do
  let d ← Prog.get
  match d.view b with
  | none => fail .erange
  | some x =>
    Prog.modify fun d => { d with readTape := d.readTape.tail }
    match d.readTape.head? with
    | some (some e) => fail e
    | _ => pure x

/-- `embk_block_write` of one file-system block. -/
def write (b : Nat) (x : Block α) : Prog (Device α) Errno Unit := do
  let d ← Prog.get
  if d.size ≤ b then fail .erange
  else
    let rc := d.oracle d.log (.write b x)
    Prog.modify fun d => { d with log := (.write b x, rc) :: d.log }
    match rc with
    | some e => fail e
    | none => Prog.modify fun d => { d with pending := (b, x) :: d.pending }

/-- `embk_block_flush`. -/
def flush : Prog (Device α) Errno Unit := do
  let d ← Prog.get
  let rc := d.oracle d.log .flush
  Prog.modify fun d => { d with log := (.flush, rc) :: d.log }
  match rc with
  | some e => fail e
  | none => Prog.modify fun d => { d with durable := d.cur, pending := [] }

/-! ## What a step does to the device -/

/-- The writes among the logged requests that the device accepted. -/
def accepted : List (Req α × Option Errno) → List (Nat × Block α)
  | [] => []
  | (.write b x, none) :: log => (b, x) :: accepted log
  | _ :: log => accepted log

/-- `d'` differs from `d` by the position on the read tape only. -/
def SameMedia (d d' : Device α) : Prop := ∃ t, t <:+ d.readTape ∧ d' = { d with readTape := t }

/-- `d'` was reached from `d` by reads and by writes to blocks of `A` only; the accepted writes are
    pending. -/
structure Wrote (A : List Nat) (d d' : Device α) : Prop where
  size : d'.size = d.size
  durable : d'.durable = d.durable
  oracle : d'.oracle = d.oracle
  readTape : d'.readTape <:+ d.readTape
  rebuildTape : d'.rebuildTape = d.rebuildTape
  log : ∃ new, d'.log = new ++ d.log ∧ (∀ r ∈ new, ∃ b x, r.1 = .write b x ∧ b ∈ A) ∧
    d'.pending = accepted new ++ d.pending

theorem accepted_append (l l' : List (Req α × Option Errno)) :
    accepted (l ++ l') = accepted l ++ accepted l' := by
  induction l with
  | nil => rfl
  | cons r l ih =>
    obtain ⟨q, rc⟩ := r
    cases q <;> cases rc <;> simp [accepted, ih]

theorem mem_accepted {l : List (Req α × Option Errno)} {w : Nat × Block α} :
    w ∈ accepted l ↔ (Req.write w.1 w.2, none) ∈ l := by
  induction l with
  | nil => simp [accepted]
  | cons r l ih =>
    obtain ⟨q, rc⟩ := r
    obtain ⟨b, x⟩ := w
    cases q <;> cases rc <;> simp [accepted, ih]

theorem SameMedia.refl (d : Device α) : SameMedia d d := ⟨d.readTape, suffix_refl _, rfl⟩

theorem SameMedia.wrote {d d' : Device α} (h : SameMedia d d') (A : List Nat) : Wrote A d d' := by
  obtain ⟨t, ht, rfl⟩ := h
  exact ⟨rfl, rfl, rfl, ht, rfl, [], rfl, by simp, rfl⟩

theorem Wrote.refl (A : List Nat) (d : Device α) : Wrote A d d := (SameMedia.refl d).wrote A

theorem Wrote.mono {A A' : List Nat} {d d' : Device α} (h : Wrote A d d') (hA : A ⊆ A') :
    Wrote A' d d' := by
  obtain ⟨new, hnew, hmem, hpend⟩ := h.log
  refine ⟨h.size, h.durable, h.oracle, h.readTape, h.rebuildTape, new, hnew, fun r hr => ?_, hpend⟩
  obtain ⟨b, x, hr, hb⟩ := hmem r hr
  exact ⟨b, x, hr, hA hb⟩

theorem Wrote.trans {A : List Nat} {d d' d'' : Device α} (h : Wrote A d d') (h' : Wrote A d' d'') :
    Wrote A d d'' := by
  obtain ⟨new, hnew, hmem, hpend⟩ := h.log
  obtain ⟨new', hnew', hmem', hpend'⟩ := h'.log
  refine ⟨h'.size.trans h.size, h'.durable.trans h.durable, h'.oracle.trans h.oracle,
    h'.readTape.trans h.readTape, h'.rebuildTape.trans h.rebuildTape, new' ++ new, by rw [hnew', hnew, append_assoc], fun r hr => ?_, ?_⟩
  · exact (mem_append.1 hr).elim (hmem' r) (hmem r)
  · rw [hpend', hpend, accepted_append, append_assoc]

/-- Blocks outside `A` read as before. -/
theorem Wrote.view_eq {A : List Nat} {d d' : Device α} (h : Wrote A d d') {b : Nat} (hb : b ∉ A) :
    d'.view b = d.view b := by
  obtain ⟨new, -, hmem, hpend⟩ := h.log
  have hnone : (accepted new).find? (fun w => decide (w.1 = b)) = none := by
    rw [find?_eq_none]
    intro w hw hwb
    obtain ⟨b', x, hreq, hb'⟩ := hmem _ (mem_accepted.1 hw)
    injection hreq with hwb'
    exact hb (of_decide_eq_true hwb ▸ hwb' ▸ hb')
  unfold view cur
  rw [h.size, hpend, find?_append, hnone, h.durable, Option.none_or]

/-- A read returns what the device holds, or fails, and moves along the tape only. -/
theorem wp_read (b : Nat) (d : Device α) :
    wp (read b) (fun x d' => d.view b = some x ∧ SameMedia d d')
      (fun _ d' => SameMedia d d') d := by
  unfold read
  simp only [wp_bind, wp_get]
  split
  · exact SameMedia.refl d
  · next x hx =>
      simp only [wp_bind, wp_modify]
      split
      · exact ⟨_, tail_suffix _, rfl⟩
      · exact ⟨hx, _, tail_suffix _, rfl⟩

/-- With the tape exhausted a read cannot fail and changes nothing. -/
theorem read_eq {d : Device α} {b : Nat} {x : Block α} (ht : d.readTape = [])
    (hx : d.view b = some x) : read b d = (.ok x, d) := by
  obtain ⟨sz, du, pe, lo, or, ta, re⟩ := d
  subst ht
  simp only [read, bind, Prog.bind, Prog.get, hx, Prog.modify, tail_nil, head?_nil, pure]

/-- The device after it accepted a write. -/
def pushed (d : Device α) (b : Nat) (x : Block α) : Device α :=
  { d with pending := (b, x) :: d.pending, log := (.write b x, none) :: d.log }

/-- The device after it accepted a flush. -/
def flushed (d : Device α) : Device α :=
  { d with durable := d.cur, pending := [], log := (.flush, none) :: d.log }

/-- The device after it refused a request. -/
def refused (d : Device α) (r : Req α) (e : Errno) : Device α :=
  { d with log := (r, some e) :: d.log }

@[simp] theorem view_flushed (d : Device α) : d.flushed.view = d.view := rfl

@[simp] theorem view_refused (d : Device α) (r : Req α) (e : Errno) : (d.refused r e).view = d.view := rfl

theorem view_pushed (d : Device α) (b : Nat) (x : Block α) (b' : Nat) :
    (d.pushed b x).view b' = if b' = b ∧ b < d.size then some x else d.view b' := by
  unfold view
  by_cases h : b' = b
  · subst h
    by_cases hs : b' < d.size <;> simp [pushed, cur, hs]
  · have h' : ¬ b = b' := fun hb => h hb.symm
    simp [pushed, cur, h, h']

/-- What a write does, by the oracle's answer. -/
theorem wp_write_eq (b : Nat) (x : Block α) (d : Device α) :
    wp (write b x)
      (fun _ d' => d.oracle d.log (.write b x) = none ∧ b < d.size ∧ d' = d.pushed b x)
      (fun e d' => (d.size ≤ b ∧ e = .erange ∧ d' = d) ∨
        (d.oracle d.log (.write b x) = some e ∧ d' = d.refused (.write b x) e)) d := by
  unfold write
  simp only [wp_bind, wp_get, wp_ite, wp_fail, wp_modify]
  refine ⟨fun hb => Or.inl ⟨hb, trivial, trivial⟩, fun hb => ?_⟩
  split
  · next e he =>
      refine Or.inr ⟨he, ?_⟩
      rw [he]
      rfl
  · next he =>
      refine ⟨he, Nat.lt_of_not_le hb, ?_⟩
      simp only [pushed]
      rw [he]

/-- What a flush does, by the oracle's answer. -/
theorem wp_flush_eq (d : Device α) :
    wp flush (fun _ d' => d.oracle d.log .flush = none ∧ d' = d.flushed)
      (fun e d' => d.oracle d.log .flush = some e ∧ d' = d.refused .flush e) d := by
  unfold flush
  simp only [wp_bind, wp_get, wp_modify]
  split
  · next e he =>
      refine ⟨he, ?_⟩
      rw [he]
      rfl
  · next he =>
      refine ⟨he, ?_⟩
      simp only [flushed]
      rw [he]
      rfl

theorem wrote_pushed (d : Device α) (b : Nat) (x : Block α) : Wrote [b] d (d.pushed b x) := by
  refine ⟨rfl, rfl, rfl, suffix_refl _, rfl, [(.write b x, none)], rfl, fun r hr => ?_, rfl⟩
  rw [mem_singleton.1 hr]
  exact ⟨b, x, rfl, mem_singleton.2 rfl⟩

theorem wrote_refused (d : Device α) (b : Nat) (x : Block α) (e : Errno) :
    Wrote [b] d (d.refused (.write b x) e) := by
  refine ⟨rfl, rfl, rfl, suffix_refl _, rfl, [(.write b x, some e)], rfl, fun r hr => ?_, rfl⟩
  rw [mem_singleton.1 hr]
  exact ⟨b, x, rfl, mem_singleton.2 rfl⟩

/-- A write that succeeds is read back; one that fails changes no block. Either way the device was
    asked about block `b` only. -/
theorem wp_write (b : Nat) (x : Block α) (d : Device α) :
    wp (write b x) (fun _ d' => Wrote [b] d d' ∧ d'.view b = some x)
      (fun _ d' => Wrote [b] d d' ∧ d'.view = d.view) d := by
  refine wp_mono (wp_write_eq b x d) ?_ ?_
  · intro _ d' h
    obtain ⟨-, hb, rfl⟩ := h
    exact ⟨wrote_pushed d b x, by rw [view_pushed, if_pos ⟨rfl, hb⟩]⟩
  · intro e d' h
    obtain ⟨-, -, rfl⟩ | ⟨-, rfl⟩ := h
    · exact ⟨Wrote.refl _ _, rfl⟩
    · exact ⟨wrote_refused d b x e, rfl⟩

end Device

end EmbLinkOs.Embkfs
