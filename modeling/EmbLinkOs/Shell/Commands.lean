import EmbLinkOs.Lib.Machine

set_option autoImplicit false

/-! # User commands and the programs they point into

`def` enters a command in the table as a borrowed pointer into the parsed program, so the program's
block has to outlive the command. `run_program` (a typed line or a script) and `exec_source_text`
(the `source` builtin) therefore hand a block that may define a command to a list of retained
blocks instead of freeing it. The list has 256 places, and the two drivers differ once it is full:
`run_program` complains and leaks the block, `exec_source_text` complains and **frees** it, with the
commands it has just defined still in the table.

The session is a machine. What running code does to the table and to the blocks is a sequence of
actions: a block starts to run, a `def` of the innermost running block is reached, a command is
called, the innermost running block comes to its end. Conditions, loops, arguments, errors and
interrupts decide which of them happens next, and the results hold whatever they decide.
`run_live` is the invariant for the runs in which no `source` finds the list full. -/

namespace EmbLinkOs.Shell

open List

/-! ## Programs -/

/-- `struct stmt`, as far as statements lie inside statements: expressions and pipelines hold
    none. -/
inductive Stmt
  | pipeline
  | letStmt
  | ifStmt (thenB elseB : List Stmt)
  | whileStmt (body : List Stmt)
  | forStmt (body : List Stmt)
  | defStmt (name : String) (params : List String) (body : List Stmt)
  | breakStmt
  | continueStmt
  | returnStmt

namespace Stmt

/-- The kinds of statement for which a driver keeps the program. -/
def keeps : Stmt → Bool
  | ifStmt .. | whileStmt .. | forStmt .. | defStmt .. => true
  | _ => false

/-- The blocks that run as part of the code the statement stands in. The body of a `def` is not one
    of them: it runs when the command is called. -/
def blocks : Stmt → List (List Stmt)
  | ifStmt thenB elseB => [thenB, elseB]
  | whileStmt body | forStmt body => [body]
  | _ => []

end Stmt

/-- `block_defines_a_command`, and the loop for `keep` of `exec_source_text`. -/
def blockDefinesACommand (b : List Stmt) : Bool := b.any Stmt.keeps

/-- The statement at index `i` of the block a path leads to: each step names a statement and one of
    its blocks. -/
def stmtAt : List (Nat × Nat) → List Stmt → Nat → Option Stmt
  | [], b, i => b[i]?
  | (j, k) :: path, b, i => do
    let st ← b[j]?
    let inner ← st.blocks[k]?
    stmtAt path inner i

/-- A `def` is found only in a block that is kept: its first step enters a statement with blocks. -/
theorem blockDefinesACommand_of_stmtAt {path : List (Nat × Nat)} {b : List Stmt} {i : Nat}
    {name : String} {params : List String} {body : List Stmt}
    (h : stmtAt path b i = some (.defStmt name params body)) : blockDefinesACommand b = true := by
  have hany : ∀ {j : Nat} {st : Stmt}, b[j]? = some st → st.keeps = true →
      blockDefinesACommand b = true := by
    intro j st hj hst
    exact any_eq_true.2 ⟨st, mem_of_getElem? hj, hst⟩
  cases path with
  | nil => exact hany h rfl
  | cons jk path =>
    simp only [stmtAt, Option.bind_eq_bind, Option.bind_eq_some_iff] at h
    obtain ⟨st, hj, inner, hk, -⟩ := h
    refine hany hj ?_
    cases st with
    | ifStmt | whileStmt | forStmt | defStmt => rfl
    | pipeline | letStmt | breakStmt | continueStmt | returnStmt => simp [Stmt.blocks] at hk

/-! ## The session -/

/-- `struct userfn`: the name, and the `def` statement the table points to with the program block
    it lies in. -/
structure Userfn where
  name : String
  block : Nat
  params : List String
  body : List Stmt

/-- Who called `block_exec` on the code that runs. -/
inductive Caller
  | runProgram
  | execSourceText
  | userfnCall
  deriving DecidableEq

/-- Code that runs, and the program block it lies in. -/
structure Frame where
  caller : Caller
  block : Nat
  code : List Stmt

/-- The table, the retained blocks, the blocks freed so far, the number of the next block to be
    parsed and the running code, innermost first. -/
structure Session where
  fns : List Userfn := []
  retained : List Nat := []
  freed : List Nat := []
  next : Nat := 0
  frames : List Frame := []

def userfnMax : Nat := 128

def retainedMax : Nat := 256

def userfnFind (fns : List Userfn) (name : String) : Option Userfn :=
  fns.find? (fun g => g.name = name)

/-- `userfn_define`; `strdup` is whether the name could be copied. A refusal leaves the table. -/
def userfnDefine (fns : List Userfn) (g : Userfn) (strdup : Bool) : List Userfn :=
  match fns.findIdx? (fun f => f.name = g.name) with
  | some i => fns.set i g
  | none => if fns.length = userfnMax ∨ strdup = false then fns else fns ++ [g]

theorem mem_userfnDefine {fns : List Userfn} {f g : Userfn} {strdup : Bool}
    (h : f ∈ userfnDefine fns g strdup) : f ∈ fns ∨ f = g := by
  unfold userfnDefine at h
  split at h
  · exact mem_or_eq_of_mem_set h
  · split_ifs at h
    · exact .inl h
    · simpa using h

namespace Session

def execRetainProgram (s : Session) (b : Nat) : Option Session :=
  if s.retained.length = retainedMax then none else some { s with retained := s.retained ++ [b] }

def blockFree (s : Session) (b : Nat) : Session := { s with freed := b :: s.freed }

/-- What becomes of a program block after `block_exec` has returned. -/
def close (s : Session) (f : Frame) : Session :=
  match f.caller with
  | .userfnCall => s
  | .runProgram =>
    if blockDefinesACommand f.code then (s.execRetainProgram f.block).getD s
    else s.blockFree f.block
  | .execSourceText =>
    if blockDefinesACommand f.code then (s.execRetainProgram f.block).getD (s.blockFree f.block)
    else s.blockFree f.block

/-- Code starts to run. -/
def enter (s : Session) (f : Frame) : Session := { s with frames := f :: s.frames }

/-- A program was parsed: its block is new. -/
def parsed (s : Session) : Session := { s with next := s.next + 1 }

end Session

/-- One thing that running code does. -/
inductive Action
  | runProgram (prog : List Stmt)
  | execSourceText (prog : List Stmt)
  | define (path : List (Nat × Nat)) (i : Nat) (strdup : Bool)
  | call (name : String)
  | finish

/-- One step. A `def` is reached in the innermost running code; an action the code has no occasion
    for changes nothing. -/
def Session.step (s : Session) : Action → Session
  | .runProgram prog =>
    if prog.isEmpty then s.parsed.blockFree s.next
    else s.parsed.enter ⟨.runProgram, s.next, prog⟩
  | .execSourceText prog => s.parsed.enter ⟨.execSourceText, s.next, prog⟩
  | .define path i strdup =>
    match s.frames with
    | [] => s
    | f :: _ =>
      match stmtAt path f.code i with
      | some (.defStmt name params body) =>
        { s with fns := userfnDefine s.fns ⟨name, f.block, params, body⟩ strdup }
      | _ => s
  | .call name =>
    match userfnFind s.fns name with
    | some g => s.enter ⟨.userfnCall, g.block, g.body⟩
    | none => s
  | .finish =>
    match s.frames with
    | [] => s
    | f :: rest => { s with frames := rest }.close f

/-- The shell, from the first line on. -/
def session : Machine Session Action Empty := ⟨fun s a => (s.step a, [])⟩

/-! ## What a session keeps -/

/-- The block of this code is freed when it ends. -/
def Frame.Loose (f : Frame) : Prop :=
  f.caller ≠ .userfnCall ∧ blockDefinesACommand f.code = false

/-- Two pieces of running code share a block only if neither frees it. -/
def Frame.Apart (f g : Frame) : Prop := f.Loose ∨ g.Loose → f.block ≠ g.block

/-- The block was parsed and is not freed. -/
def Session.Live (s : Session) (b : Nat) : Prop := b < s.next ∧ b ∉ s.freed

/-- The invariant: commands and running code lie in live blocks, and a block that will be freed has
    no command in it and no other code running in it. -/
structure Session.Inv (s : Session) : Prop where
  fns : ∀ g ∈ s.fns, s.Live g.block
  frames : ∀ f ∈ s.frames, s.Live f.block
  freed : ∀ b ∈ s.freed, b < s.next
  apart : s.frames.Pairwise Frame.Apart
  loose : ∀ g ∈ s.fns, ∀ f ∈ s.frames, f.Loose → g.block ≠ f.block

namespace Session

variable {s : Session} {f : Frame} {rest : List Frame}

theorem inv_empty : Inv {} := by
  constructor <;> simp

theorem Live.parsed {b : Nat} (h : s.Live b) : s.parsed.Live b := ⟨Nat.lt_succ_of_lt h.1, h.2⟩

theorem Inv.parsed (h : s.Inv) : s.parsed.Inv where
  fns g hg := (h.fns g hg).parsed
  frames f hf := (h.frames f hf).parsed
  freed b hb := Nat.lt_succ_of_lt (h.freed b hb)
  apart := h.apart
  loose := h.loose

/-- Entering code of a live block that neither frees it nor lies where it will be freed. -/
theorem Inv.enter (h : s.Inv) (hlive : s.Live f.block) (happ : ∀ g ∈ s.frames, f.Apart g)
    (hfns : ∀ g ∈ s.fns, f.Loose → g.block ≠ f.block) :
    (s.enter f).Inv where
  fns := h.fns
  frames := forall_mem_cons.2 ⟨hlive, h.frames⟩
  freed := h.freed
  apart := pairwise_cons.2 ⟨happ, h.apart⟩
  loose g hg := forall_mem_cons.2 ⟨hfns g hg, h.loose g hg⟩

/-- A freshly parsed program is apart from everything there was. -/
theorem Inv.enter_new (h : s.Inv) (c : Caller) (prog : List Stmt) :
    (s.parsed.enter ⟨c, s.next, prog⟩).Inv := by
  refine h.parsed.enter ⟨Nat.lt_succ_self _, ?_⟩ ?_ ?_
  · intro hmem
    exact absurd (h.freed _ hmem) (Nat.lt_irrefl _)
  · intro g hg _
    exact (h.frames g hg).1.ne'
  · intro g hg _
    exact (h.fns g hg).1.ne

/-- Freeing a block with no command and no running code in it. -/
theorem Inv.blockFree (h : s.Inv) {b : Nat} (hb : b < s.next) (hfns : ∀ g ∈ s.fns, g.block ≠ b)
    (hframes : ∀ f ∈ s.frames, f.block ≠ b) : (s.blockFree b).Inv where
  fns g hg := ⟨(h.fns g hg).1, not_mem_cons_of_ne_of_not_mem (hfns g hg) (h.fns g hg).2⟩
  frames f hf :=
    ⟨(h.frames f hf).1, not_mem_cons_of_ne_of_not_mem (hframes f hf) (h.frames f hf).2⟩
  freed := forall_mem_cons.2 ⟨hb, h.freed⟩
  apart := h.apart
  loose := h.loose

theorem Inv.apart_cons (h : s.Inv) (hs : s.frames = f :: rest) :
    (∀ g ∈ rest, f.Apart g) ∧ rest.Pairwise Frame.Apart := by
  have hp := h.apart
  rw [hs] at hp
  exact pairwise_cons.1 hp

theorem Inv.leave (h : s.Inv) (hs : s.frames = f :: rest) :
    Inv { s with frames := rest } where
  fns := h.fns
  frames g hg := h.frames g (hs ▸ mem_cons_of_mem f hg)
  freed := h.freed
  apart := (h.apart_cons hs).2
  loose g hg p hp := h.loose g hg p (hs ▸ mem_cons_of_mem f hp)

/-- The retained blocks play no part in the invariant. -/
theorem Inv.retain (h : s.Inv) (l : List Nat) : Inv { s with retained := l } :=
  ⟨h.fns, h.frames, h.freed, h.apart, h.loose⟩

theorem Inv.execRetainProgram_getD (h : s.Inv) (b : Nat) :
    ((s.execRetainProgram b).getD s).Inv := by
  unfold execRetainProgram
  split_ifs
  · exact h
  · exact h.retain _

/-- A `def` reached in the innermost code: that code does not free its block. -/
theorem Inv.define (h : s.Inv) (hs : s.frames = f :: rest) {path : List (Nat × Nat)} {i : Nat}
    {name : String} {params : List String} {body : List Stmt}
    (hst : stmtAt path f.code i = some (.defStmt name params body)) (strdup : Bool) :
    Inv { s with fns := userfnDefine s.fns ⟨name, f.block, params, body⟩ strdup } := by
  have hkept : ¬ f.Loose := by
    rintro ⟨-, hcode⟩
    rw [blockDefinesACommand_of_stmtAt hst] at hcode
    cases hcode
  have hnew : ∀ p ∈ s.frames, p.Loose → f.block ≠ p.block := by
    intro p hp hloose
    rw [hs] at hp
    rcases mem_cons.1 hp with rfl | hp
    · exact absurd hloose hkept
    · exact (h.apart_cons hs).1 p hp (.inr hloose)
  refine ⟨?_, h.frames, h.freed, h.apart, ?_⟩
  · intro g hg
    rcases mem_userfnDefine hg with hg | rfl
    · exact h.fns g hg
    · exact h.frames f (hs ▸ mem_cons_self)
  · intro g hg
    rcases mem_userfnDefine hg with hg | rfl
    · exact h.loose g hg
    · exact hnew

/-! ## Runs -/

/-- A `source` that comes to its end with a block to keep finds a place for it. -/
def hasRoom (s : Session) : Action → Bool
  | .finish =>
    match s.frames with
    | f :: _ => f.caller ≠ .execSourceText || !blockDefinesACommand f.code ||
        s.retained.length ≠ retainedMax
    | [] => true
  | _ => true

theorem Inv.finish (h : s.Inv) (hroom : s.hasRoom .finish = true) : (s.step .finish).Inv := by
  rcases hs : s.frames with _ | ⟨f, rest⟩
  · simpa [step, hs] using h
  have hleave := h.leave hs
  -- A block that is freed here belongs to code that was loose while it ran.
  have hfree : f.Loose → (Session.blockFree { s with frames := rest } f.block).Inv := by
    intro hloose
    refine hleave.blockFree (h.frames f (hs ▸ mem_cons_self)).1 ?_ ?_
    · intro g hg
      exact h.loose g hg f (hs ▸ mem_cons_self) hloose
    · intro p hp
      exact ((h.apart_cons hs).1 p hp (.inl hloose)).symm
  rw [step, hs]
  rcases hc : f.caller with _ | _ | _
  · simp only [close, hc]
    split_ifs with hd
    · exact hleave.execRetainProgram_getD _
    · exact hfree ⟨by simp [hc], by simpa using hd⟩
  · simp only [close, hc]
    split_ifs with hd
    · have hlen : s.retained.length ≠ retainedMax := by simpa [hasRoom, hs, hc, hd] using hroom
      rw [execRetainProgram, if_neg hlen]
      exact hleave.retain _
    · exact hfree ⟨by simp [hc], by simpa using hd⟩
  · simpa only [close, hc] using hleave

/-- One step keeps the invariant. -/
theorem Inv.step (h : s.Inv) {a : Action} (hroom : s.hasRoom a = true) : (s.step a).Inv := by
  cases a with
  | runProgram prog =>
    rw [Session.step]
    split_ifs
    · refine h.parsed.blockFree (Nat.lt_succ_self _) ?_ ?_
      · exact fun g hg => (h.fns g hg).1.ne
      · exact fun f hf => (h.frames f hf).1.ne
    · exact h.enter_new _ _
  | execSourceText prog => exact h.enter_new _ _
  | define path i strdup =>
    rw [Session.step]
    split
    · exact h
    · next f rest hs =>
      split
      · next hst => exact h.define hs hst strdup
      · exact h
  | call name =>
    rw [Session.step]
    split
    · next g hg =>
      have hmem : g ∈ s.fns := mem_of_find?_eq_some hg
      refine h.enter (h.fns g hmem) ?_ ?_
      · rintro p hp (hl | hl)
        · exact absurd rfl hl.1
        · exact h.loose g hmem p hp hl
      · exact fun _ _ hl => absurd rfl hl.1
    · exact h
  | finish => exact h.finish hroom

/-- A session in which every `source` finds room has the invariant at every moment. -/
theorem run_inv {as : List Action}
    (hroom : session.Admits (fun s a => s.hasRoom a = true) {} as) : (session.run {} as).1.Inv :=
  Machine.run_invariant_of (I := fun _ s => Inv s) (fun _ _ _ h ha => h.step ha) as [] {}
    inv_empty hroom

/-- In a session in which every `source` that has a block to keep finds a place for it, every
    command of the table lies in a program block that was parsed and not freed, and so does all the
    code that runs. -/
theorem run_live (as : List Action)
    (hroom : session.Admits (fun s a => s.hasRoom a = true) {} as) :
    (∀ g ∈ (session.run {} as).1.fns, (session.run {} as).1.Live g.block) ∧
      ∀ f ∈ (session.run {} as).1.frames, (session.run {} as).1.Live f.block :=
  ⟨(run_inv hroom).fns, (run_inv hroom).frames⟩

/-- A program that is a single definition, run to its end. -/
def defining (start : List Stmt → Action) (name : String) : List Action :=
  [start [.defStmt name [] [.pipeline]], .define [] 0 true, .finish]

/-- A file sourced into a session with one line before it. -/
def sourced : List Action := defining .runProgram "f" ++ defining .execSourceText "g"

theorem run_live_source : session.Admits (fun s a => s.hasRoom a = true) {} sourced ∧
    ∀ g ∈ (session.run {} sourced).1.fns, (session.run {} sourced).1.Live g.block :=
  ⟨by decide, (run_live sourced (by decide)).1⟩

/-- After 256 typed definitions, a sourced file that defines `g` is refused: its block is freed and
    the table still has `g` in it. -/
theorem source_full_dangling :
    ∃ g ∈ (session.run {} ((List.replicate 256 (defining .runProgram "f")).flatten ++
        defining .execSourceText "g")).1.fns,
      g.block ∈ (session.run {} ((List.replicate 256 (defining .runProgram "f")).flatten ++
        defining .execSourceText "g")).1.freed := by
  decide +kernel

end Session

end EmbLinkOs.Shell
