import Mathlib

set_option autoImplicit false

/-! # The walk along a path

`vfs_walk_from_ex` of `kernel/fs/vfs.c`, twice. The lower model keeps what the C function keeps: the
trail of directories, the two buffers a link is spliced into, the pointer `s` into the path or into
one of them. Every read and write is checked against the bounds of the object it goes to, and the
walk faults where a check fails. The upper model (`Textual`) walks the text that `s` points to. A turn of
the lower loop is a turn of the upper one (`turn_refines`), so it never faults; the upper one ends
because a turn uses up text or one of eight links, and it only ever holds objects that a chain of
lookups leads to from the start (`Below`). -/

namespace EmbLinkOs.Vfs

open List hiding Vector

abbrev Bytes := List UInt8

def eInval : Int := -22
def eNameTooLong : Int := -36
def eNosys : Int := -38
def eLoop : Int := -40
def eNoent : Int := -2

def slash : UInt8 := 0x2F
def dot : UInt8 := 0x2E

/-- `VFS_DT_LNK`, `VFS_DT_DIR`. -/
def dtLnk : UInt8 := 3
def dtDir : UInt8 := 2

/-- `struct vnode`: `mnt` is the slot of a mount, or `NULL`. -/
structure Vnode where
  mnt : Option Nat
  ino : UInt64
  type : UInt8
  deriving DecidableEq

/-- The operations of `struct vfs_ops` that a walk calls. `readlink` gives as many bytes as it says it
wrote. -/
structure Ops where
  lookup : Option (Vnode → Bytes → Except Int Vnode)
  readlink : Option (Vnode → Except Int Bytes)

/-- `mnt->ops` of every mount: what the file systems hold while a walk goes on. -/
abbrev Files := Nat → Option Ops

/-- `vn->mnt->ops->lookup`. -/
def Files.lookup (fs : Files) (v : Vnode) : Option (Vnode → Bytes → Except Int Vnode) :=
  (v.mnt.bind fs).bind Ops.lookup

/-- `vn->mnt->ops->readlink`. -/
def Files.readlink (fs : Files) (v : Vnode) : Option (Vnode → Except Int Bytes) :=
  (v.mnt.bind fs).bind Ops.readlink

/-- What a walk asks of the file systems. -/
inductive Call where
  | lookup (dir : Vnode) (name : Bytes)
  | readlink (link : Vnode)
  deriving DecidableEq

def Call.vnode : Call → Vnode
  | .lookup dir _ => dir
  | .readlink link => link

/-- `VFS_MAX_DEPTH`. -/
def maxDepth : Nat := 64

/-- `VFS_MAX_SYMLINKS`. -/
def maxSymlinks : Nat := 8

/-- `VFS_PATH_BUF`. -/
def pathBuf : Nat := 256

/-! ## The function -/

/-- The objects `s` may point into: the path, or one of `bufs`. -/
inductive Src where
  | rel
  | buf (i : Bool)
  deriving DecidableEq

structure Ptr where
  src : Src
  off : Nat
  deriving DecidableEq

def Ptr.add (p : Ptr) (n : Nat) : Ptr := { p with off := p.off + n }

/-- The path with its zero byte, and the buffers. -/
structure Mem where
  rel : Bytes
  bufs : Bool → Bytes

def Mem.object (m : Mem) : Src → Bytes
  | .rel => m.rel
  | .buf i => m.bufs i

/-- What can be read from `p` on, up to the end of the object. -/
def Mem.from (m : Mem) (p : Ptr) : Bytes := (m.object p.src).drop p.off

/-- `*p`; none is a read outside the object. -/
def Mem.read (m : Mem) (p : Ptr) : Option UInt8 := (m.from p).head?

/-- `bufs[i][n] = c`; none is a write outside the buffer. -/
def Mem.write (m : Mem) (i : Bool) (n : Nat) (c : UInt8) : Option Mem :=
  if n < (m.bufs i).length then some { m with bufs := Function.update m.bufs i ((m.bufs i).set n c) }
  else none

/-- `while (*p == '/') p++`: how far, in the bytes from `p` on. -/
def skipSlashes : Bytes → Option Nat
  | [] => none
  | c :: cs => if c = slash then (skipSlashes cs).map (· + 1) else some 0

/-- `while (s[len] != '\0' && s[len] != '/') len++`. -/
def componentLen : Bytes → Option Nat
  | [] => none
  | c :: cs => if c = 0 ∨ c = slash then some 0 else (componentLen cs).map (· + 1)

/-- The first copying loop: the target, from index `n` of the buffer on. -/
def copyTarget (i : Bool) : Bytes → Mem → Nat → Option (Mem × Nat)
  | [], m, n => some (m, n)
  | c :: cs, m, n =>
    if n < pathBuf - 1 then do
      let m ← m.write i n c
      copyTarget i cs m (n + 1)
    else some (m, n)

/-- The second copying loop: the rest of the old path, read where it stands. `n` grows with each
turn, so 256 turns are enough. -/
def copyRest (i : Bool) : Nat → Mem → Ptr → Nat → Option (Mem × Nat)
  | 0, m, _, n => some (m, n)
  | k + 1, m, r, n => do
    let c ← m.read r
    if c ≠ 0 ∧ n < pathBuf - 1 then do
      let m ← m.write i n c
      copyRest i k m (r.add 1) (n + 1)
    else some (m, n)

/-- `bufs[i][n - 1]`. -/
def Mem.last (m : Mem) (i : Bool) : Nat → Option UInt8
  | 0 => none
  | n + 1 => m.read ⟨.buf i, n⟩

/-- `if (n < VFS_PATH_BUF - 1 && nb[n - 1] != '/') nb[n++] = '/'`. -/
def addSlash (i : Bool) (m : Mem) (n : Nat) : Option (Mem × Nat) :=
  if n < pathBuf - 1 then do
    let last ← m.last i n
    if last = slash then some (m, n) else (m.write i n slash).map (·, n + 1)
  else some (m, n)

/-- `target/rest`, written to buffer `i`; `n` is its length. -/
def buildPath (i : Bool) (target : Bytes) (m : Mem) (rest : Ptr) : Option (Mem × Nat) := do
  let (m, n) ← copyTarget i target m 0
  let c ← m.read rest
  if c = 0 then some (m, n)
  else do
    let (m, n) ← addSlash i m n
    copyRest i pathBuf m rest n

/-- The locals of the loop. The top of the trail is its head. -/
structure Walker where
  stack : List Vnode
  mem : Mem
  which : Bool
  nlinks : Nat
  s : Ptr
  trace : List Call

/-- A turn goes on with new locals, or returns. -/
inductive Turn (σ : Type) where
  | next (w : σ)
  | ret (w : σ) (r : Except Int Vnode)

/-- `stack[depth++] = v`. -/
def push (v : Vnode) (stack : List Vnode) : Option (List Vnode) :=
  if stack.length < maxDepth then some (v :: stack) else none

/-- `s = p; while (*s == '/') s++`. -/
def Walker.advance (w : Walker) (p : Ptr) : Option Walker := do
  let k ← skipSlashes (w.mem.from p)
  return { w with s := p.add k }

/-- `n` bytes of a path have been built in buffer `i`: the walk goes on along it, from the start where
it begins with a slash. -/
def resume (w : Walker) (m : Mem) (i : Bool) (n : Nat) : Option (Turn Walker) :=
  let w := { w with mem := m, which := i }
  if pathBuf - 1 ≤ n then some (.ret w (.error eNameTooLong))
  else do
    let m ← m.write i n 0
    let first ← m.read ⟨.buf i, 0⟩
    if first = slash then do
      let start ← w.stack.getLast?
      let w ← { w with mem := m, stack := [start] }.advance ⟨.buf i, 0⟩
      return .next w
    else return .next { w with mem := m, s := ⟨.buf i, 0⟩ }

/-- The link `child`, met with `rest` behind it, is spliced in, in the buffer `s` is not in. -/
def splice (fs : Files) (w : Walker) (child : Vnode) (rest : Ptr) : Option (Turn Walker) :=
  let w := { w with nlinks := w.nlinks + 1 }
  if maxSymlinks < w.nlinks then some (.ret w (.error eLoop))
  else
    match fs.readlink child with
    | none => some (.ret w (.error eNosys))
    | some readlink =>
      let w := { w with trace := w.trace ++ [.readlink child] }
      match readlink child with
      | .error e => some (.ret w (.error e))
      | .ok target =>
        if target.length = 0 ∨ pathBuf ≤ target.length then some (.ret w (.error eInval))
        else do
          let (m, n) ← buildPath (!w.which) target w.mem rest
          resume w m (!w.which) n

/-- The component of `len` bytes at `s` is a name: the directory is asked for it. -/
def name (fs : Files) (followFinal : Bool) (w : Walker) (len : Nat) : Option (Turn Walker) := do
  let dir ← w.stack.head?
  match fs.lookup dir with
  | none => return .ret w (.error eNosys)
  | some lookup =>
    if maxDepth ≤ w.stack.length then return .ret w (.error eNameTooLong)
    else do
      let comp := (w.mem.from w.s).take len
      let w := { w with trace := w.trace ++ [.lookup dir comp] }
      match lookup dir comp with
      | .error e => return .ret w (.error e)
      | .ok child => do
        let k ← skipSlashes (w.mem.from (w.s.add len))
        let rest := (w.s.add len).add k
        let c ← w.mem.read rest
        if child.type = dtLnk ∧ (followFinal ∨ c ≠ 0) then splice fs w child rest
        else do
          let stack ← push child w.stack
          let w ← { w with stack }.advance (w.s.add len)
          return .next w

/-- One turn of `while (*s != '\0')`. -/
def turn (fs : Files) (followFinal : Bool) (w : Walker) : Option (Turn Walker) := do
  let c ← w.mem.read w.s
  if c = 0 then do
    let out ← w.stack.head?
    return .ret w (.ok out)
  else do
    let len ← componentLen (w.mem.from w.s)
    let comp := (w.mem.from w.s).take len
    if len = 0 ∨ 255 < len then return .ret w (.error eInval)
    else if comp = [dot] then do
      let w ← w.advance (w.s.add len)
      return .next w
    else if comp = [dot, dot] then do
      let stack := if 1 < w.stack.length then w.stack.tail else w.stack
      let w ← { w with stack }.advance (w.s.add len)
      return .next w
    else name fs followFinal w len

/-- At most `n` turns. The result is none where an access was out of bounds, and the locals without
a result where the loop has not ended. -/
def turns (fs : Files) (followFinal : Bool) : Nat → Walker → Option (Walker × Option (Except Int Vnode))
  | 0, w => some (w, none)
  | n + 1, w => do
    match ← turn fs followFinal w with
    | .ret w r => return (w, some r)
    | .next w => turns fs followFinal n w

/-- A string argument, without its zero byte. -/
structure CString where
  bytes : Bytes
  nul : 0 ∉ bytes

/-- The locals before the loop; the buffers hold what they held. -/
def Walker.enter (start : Vnode) (rel : CString) (bufs : Bool → Vector UInt8 pathBuf) : Option Walker :=
  Walker.advance ⟨[start], ⟨rel.bytes ++ [0], fun i => (bufs i).toList⟩, false, 0, ⟨.rel, 0⟩, []⟩ ⟨.rel, 0⟩

/-! ## The walk along a text -/

/-- A C string: the bytes before the first zero byte. -/
def cstr (b : Bytes) : Bytes := b.takeWhile (· ≠ 0)

def dropSlashes (b : Bytes) : Bytes := b.dropWhile (· = slash)

/-- The first component of a text, and what stands behind it and its slashes. -/
def component (text : Bytes) : Bytes := text.takeWhile (· ≠ slash)

def behind (text : Bytes) : Bytes := dropSlashes (text.dropWhile (· ≠ slash))

/-- A trail of directories, never empty, and the text still to walk. -/
structure Textual where
  top : Vnode
  below : List Vnode
  text : Bytes
  nlinks : Nat
  trace : List Call

def Textual.start (t : Textual) : Vnode := t.below.getLastD t.top

/-- The target of a link in front of the rest of the path. -/
def joined (target rest : Bytes) : Bytes :=
  target ++ if rest = [] then [] else if target.getLast? = some slash then rest else slash :: rest

/-- Where a walk goes on from a link: a target that begins with a slash starts over. -/
def Textual.follow (t : Textual) (path : Bytes) : Textual :=
  if path.head? = some slash then
    { t with top := t.start, below := [], text := dropSlashes (cstr path) }
  else { t with text := cstr path }

def resumeText (t : Textual) (path : Bytes) : Turn Textual :=
  if pathBuf - 1 ≤ path.length then .ret t (.error eNameTooLong) else .next (t.follow path)

def spliceText (fs : Files) (t : Textual) (child : Vnode) (rest : Bytes) : Turn Textual :=
  let t := { t with nlinks := t.nlinks + 1 }
  if maxSymlinks < t.nlinks then .ret t (.error eLoop)
  else
    match fs.readlink child with
    | none => .ret t (.error eNosys)
    | some readlink =>
      let t := { t with trace := t.trace ++ [.readlink child] }
      match readlink child with
      | .error e => .ret t (.error e)
      | .ok target =>
        if target.length = 0 ∨ pathBuf ≤ target.length then .ret t (.error eInval)
        else resumeText t (joined target rest)

def nameText (fs : Files) (followFinal : Bool) (t : Textual) : Turn Textual :=
  match fs.lookup t.top with
  | none => .ret t (.error eNosys)
  | some lookup =>
    if maxDepth ≤ t.below.length + 1 then .ret t (.error eNameTooLong)
    else
      let u := { t with trace := t.trace ++ [.lookup t.top (component t.text)] }
      match lookup t.top (component t.text) with
      | .error e => .ret u (.error e)
      | .ok child =>
        if child.type = dtLnk ∧ (followFinal ∨ behind t.text ≠ []) then spliceText fs u child (behind t.text)
        else .next { u with top := child, below := t.top :: t.below, text := behind t.text }

/-- The directory above the top; the start stays. -/
def Textual.up (t : Textual) : Textual :=
  match t.below with
  | [] => t
  | v :: below => { t with top := v, below }

def turnText (fs : Files) (followFinal : Bool) (t : Textual) : Turn Textual :=
  if t.text = [] then .ret t (.ok t.top)
  else if component t.text = [] ∨ 255 < (component t.text).length then .ret t (.error eInval)
  else if component t.text = [dot] then .next { t with text := behind t.text }
  else if component t.text = [dot, dot] then .next { t.up with text := behind t.text }
  else nameText fs followFinal t

def turnsText (fs : Files) (followFinal : Bool) : Nat → Textual → Textual × Option (Except Int Vnode)
  | 0, t => (t, none)
  | n + 1, t =>
    match turnText fs followFinal t with
    | .ret t r => (t, some r)
    | .next t => turnsText fs followFinal n t

/-- The turns a walk can still make: a turn takes text, or spends a link and gets a new text of at
most 254 bytes. -/
def Textual.bound (t : Textual) : Nat := t.text.length + (maxSymlinks - t.nlinks) * pathBuf + 1

/-- Before the first turn. -/
def Textual.enter (start : Vnode) (rel : Bytes) : Textual := ⟨start, [], dropSlashes rel, 0, []⟩

/-! ## Reading a text -/

/-- The text `p` points to: the bytes up to a zero byte that is there. -/
def Mem.Points (m : Mem) (p : Ptr) (text : Bytes) : Prop :=
  0 ∉ text ∧ ∃ junk, m.from p = text ++ 0 :: junk

theorem skipSlashes_text (text junk : Bytes) :
    skipSlashes (text ++ 0 :: junk) = some (text.takeWhile (· = slash)).length := by
  induction text with
  | nil => rfl
  | cons c cs ih =>
    by_cases h : c = slash
    · simp [skipSlashes, ih, h]
    · simp [skipSlashes, h]

theorem componentLen_text (text junk : Bytes) (hz : 0 ∉ text) :
    componentLen (text ++ 0 :: junk) = some (component text).length := by
  induction text with
  | nil => rfl
  | cons c cs ih =>
    simp only [mem_cons, not_or] at hz
    by_cases h : c = slash
    · simp [componentLen, component, h]
    · simpa [componentLen, component, h, Ne.symm hz.1] using ih hz.2

theorem Mem.from_add (m : Mem) (p : Ptr) (n : Nat) : m.from (p.add n) = (m.from p).drop n := by
  simp [Mem.from, Ptr.add]

section Points

variable {m : Mem} {p : Ptr} {text : Bytes}

theorem Mem.Points.read (h : m.Points p text) : m.read p = some (text.headD 0) := by
  obtain ⟨-, junk, h⟩ := h
  cases text <;> simp [Mem.read, h]

theorem headD_eq_zero (hz : 0 ∉ text) : text.headD 0 = 0 ↔ text = [] := by
  cases text with
  | nil => simp
  | cons c cs =>
    simp only [mem_cons, not_or] at hz
    simp [Ne.symm hz.1]

/-- A pointer moved over a first part of the text points to the other part. -/
theorem Mem.Points.move {a b : Bytes} (h : m.Points p (a ++ b)) : m.Points (p.add a.length) b := by
  obtain ⟨hz, junk, h⟩ := h
  refine ⟨fun hb => hz (by simp [hb]), junk, ?_⟩
  rw [Mem.from_add, h]
  simp

theorem Mem.Points.skip (h : m.Points p text) :
    ∃ k, skipSlashes (m.from p) = some k ∧ m.Points (p.add k) (dropSlashes text) := by
  obtain ⟨-, junk, hj⟩ := id h
  refine ⟨_, hj ▸ skipSlashes_text text junk, Mem.Points.move ?_⟩
  rwa [dropSlashes, takeWhile_append_dropWhile]

theorem Mem.Points.component (h : m.Points p text) :
    componentLen (m.from p) = some (component text).length ∧
      (m.from p).take (component text).length = component text ∧
      m.Points (p.add (component text).length) (text.dropWhile (· ≠ slash)) := by
  obtain ⟨hz, junk, hj⟩ := id h
  have hsplit : Vfs.component text ++ text.dropWhile (· ≠ slash) = text :=
    takeWhile_append_dropWhile
  refine ⟨hj ▸ componentLen_text text junk hz, ?_, Mem.Points.move (hsplit.symm ▸ h)⟩
  have hfirst : text ++ 0 :: junk = Vfs.component text ++ (text.dropWhile (· ≠ slash) ++ 0 :: junk) := by
    rw [← append_assoc, hsplit]
  rw [hj, hfirst, take_left]

end Points

/-! ## Writing a text -/

/-- `m'` is `m` with other bytes in buffer `i`. -/
def Mem.Same (i : Bool) (m m' : Mem) : Prop :=
  m'.rel = m.rel ∧ m'.bufs (!i) = m.bufs (!i) ∧ (m'.bufs i).length = (m.bufs i).length

theorem Mem.Same.refl (i : Bool) (m : Mem) : Mem.Same i m m := ⟨rfl, rfl, rfl⟩

variable {i : Bool} {n : Nat}

theorem Mem.Same.trans {a b c : Mem} (h : Mem.Same i a b) (h' : Mem.Same i b c) : Mem.Same i a c :=
  ⟨h'.1.trans h.1, h'.2.1.trans h.2.1, h'.2.2.trans h.2.2⟩

theorem Mem.Same.from {m m' : Mem} {p : Ptr} (h : Mem.Same i m m') (hp : p.src ≠ .buf i) :
    m'.from p = m.from p := by
  obtain ⟨src, off⟩ := p
  cases src with
  | rel => simp [Mem.from, Mem.object, h.1]
  | buf j =>
    obtain rfl : j = !i := by
      cases i <;> cases j <;> simp at hp ⊢
    simp [Mem.from, Mem.object, h.2.1]

theorem Mem.Same.points {m m' : Mem} {p : Ptr} {text : Bytes} (h : Mem.Same i m m')
    (hp : p.src ≠ .buf i) (ht : m.Points p text) : m'.Points p text :=
  ⟨ht.1, by rw [h.from hp]; exact ht.2⟩

theorem Mem.write_spec (i : Bool) (m : Mem) (n : Nat) (c : UInt8) (hn : n < (m.bufs i).length) :
    ∃ m', m.write i n c = some m' ∧ Mem.Same i m m' ∧ m'.bufs i = (m.bufs i).set n c :=
  ⟨_, if_pos hn, ⟨rfl, by simp [Function.update], by simp⟩, by simp⟩

/-- `cs` has been copied to buffer `i` from index `n` on, as far as index 255; `n'` is behind it. -/
structure Mem.Copied (i : Bool) (m : Mem) (n : Nat) (cs : Bytes) (m' : Mem) (n' : Nat) : Prop where
  same : Mem.Same i m m'
  index : n' = min 255 (n + cs.length)
  bytes : (m'.bufs i).take n' = (m.bufs i).take n ++ cs.take (n' - n)

theorem Mem.Copied.nil (i : Bool) (m : Mem) (hn : n ≤ 255) : Mem.Copied i m n [] m n :=
  ⟨.refl i m, by simp [hn], by simp⟩

theorem Mem.Copied.full (i : Bool) (m : Mem) (cs : Bytes) : Mem.Copied i m 255 cs m 255 :=
  ⟨.refl i m, by simp, by simp⟩

theorem Mem.Copied.le {m m' : Mem} {n' : Nat} {cs : Bytes} (h : Mem.Copied i m n cs m' n')
    (hn : n ≤ 255) : n ≤ n' ∧ n' ≤ 255 := by
  have := h.index
  omega

theorem Mem.Copied.append {a b c : Mem} {n' n'' : Nat} {cs ds : Bytes} (hn : n ≤ 255)
    (h : Mem.Copied i a n cs b n') (h' : Mem.Copied i b n' ds c n'') :
    Mem.Copied i a n (cs ++ ds) c n'' := by
  have hi := h.index
  have hi' := h'.index
  refine ⟨h.same.trans h'.same, by simp; omega, ?_⟩
  rw [h'.bytes, h.bytes, append_assoc, take_append]
  -- Where the first copy stopped early, index 255 is reached and nothing more is copied.
  by_cases hfull : n + cs.length ≤ 255
  · rw [take_of_length_le (by omega : cs.length ≤ n' - n),
      take_of_length_le (by omega : cs.length ≤ n'' - n)]
    congr 3
    omega
  · rw [show n'' - n' = 0 by omega, show n'' - n - cs.length = 0 by omega, show n'' - n = n' - n by omega]

/-- Writing one byte copies it. -/
theorem Mem.write_copied (i : Bool) (m : Mem) (n : Nat) (c : UInt8) (hb : (m.bufs i).length = pathBuf)
    (hn : n < pathBuf - 1) : ∃ m', m.write i n c = some m' ∧ Mem.Copied i m n [c] m' (n + 1) := by
  have hlt : n < (m.bufs i).length := by
    simp only [pathBuf] at hb hn
    omega
  obtain ⟨m', hw, hs, hset⟩ := m.write_spec i n c hlt
  refine ⟨m', hw, hs, by simp only [pathBuf] at hn; simp; omega, ?_⟩
  rw [hset, take_add_one, take_set_of_le le_rfl, getElem?_set_self hlt]
  simp

theorem copyTarget_copied (i : Bool) (cs : Bytes) (m : Mem) (n : Nat) (hb : (m.bufs i).length = pathBuf)
    (hn : n ≤ 255) : ∃ m' n', copyTarget i cs m n = some (m', n') ∧ Mem.Copied i m n cs m' n' := by
  induction cs generalizing m n with
  | nil => exact ⟨m, n, rfl, .nil i m hn⟩
  | cons c cs ih =>
    rw [copyTarget]
    split
    next hlt =>
      obtain ⟨m₁, hw, h₁⟩ := m.write_copied i n c hb hlt
      obtain ⟨m', n', hc, h₂⟩ := ih m₁ (n + 1) (h₁.same.2.2.trans hb) (by simp only [pathBuf] at hlt; omega)
      exact ⟨m', n', by simp [hw, hc], h₁.append hn h₂⟩
    next hge =>
      obtain rfl : n = 255 := by
        simp only [pathBuf] at hge
        omega
      exact ⟨m, 255, rfl, .full i m _⟩

theorem copyRest_copied (i : Bool) (k : Nat) (m : Mem) (r : Ptr) (n : Nat) (text : Bytes)
    (hb : (m.bufs i).length = pathBuf) (hn : n ≤ 255) (hk : pathBuf ≤ k + n) (hr : r.src ≠ .buf i)
    (ht : m.Points r text) : ∃ m' n', copyRest i k m r n = some (m', n') ∧ Mem.Copied i m n text m' n' := by
  induction k generalizing m r n text with
  | zero =>
    simp only [pathBuf] at hk
    omega
  | succ k ih =>
    rw [copyRest, ht.read]
    cases text with
    | nil => exact ⟨m, n, by simp, .nil i m hn⟩
    | cons c cs =>
      have hc : c ≠ 0 := fun h => ht.1 (by simp [h])
      by_cases hlt : n < pathBuf - 1
      · obtain ⟨m₁, hw, h₁⟩ := m.write_copied i n c hb hlt
        have hmove : m.Points (r.add 1) cs := Mem.Points.move (a := [c]) ht
        obtain ⟨m', n', hcopy, h₂⟩ := ih m₁ (r.add 1) (n + 1) cs (h₁.same.2.2.trans hb)
          (by simp only [pathBuf] at hlt; omega) (by omega) hr (h₁.same.points hr hmove)
        exact ⟨m', n', by simp [hc, hlt, hw, hcopy], h₁.append hn h₂⟩
      · obtain rfl : n = 255 := by
          simp only [pathBuf] at hlt
          omega
        exact ⟨m, 255, by simp [pathBuf], .full i m _⟩

theorem joined_of_rest (target : Bytes) {rest : Bytes} (h : rest ≠ []) :
    joined target rest = target ++ ((if target.getLast? = some slash then [] else [slash]) ++ rest) := by
  rw [joined, if_neg h]
  split <;> simp

/-- A byte that has been copied is read back. -/
theorem Mem.Copied.read {m m' : Mem} {n' : Nat} {cs : Bytes} (h : Mem.Copied i m 0 cs m' n')
    {k : Nat} (hk : k < n') : m'.read ⟨.buf i, k⟩ = cs[k]? := by
  have hb : (m'.bufs i).take n' = cs.take n' := by simpa using h.bytes
  have hget := congrArg (fun l : Bytes => l[k]?) hb
  simpa [Mem.read, Mem.from, Mem.object, getElem?_take, hk] using hget

/-- Between the target and the rest a slash is written, unless one stands there or there is no room. -/
theorem addSlash_copied {target : Bytes} {m m₁ : Mem} {n₁ : Nat} (hne : target ≠ [])
    (hb : (m₁.bufs i).length = pathBuf) (h : Mem.Copied i m 0 target m₁ n₁) :
    ∃ m₂ n₂, addSlash i m₁ n₁ = some (m₂, n₂) ∧
      Mem.Copied i m₁ n₁ (if target.getLast? = some slash then [] else [slash]) m₂ n₂ := by
  have hi := h.index
  have hpos : 0 < target.length := length_pos_iff.2 hne
  by_cases hroom : n₁ < pathBuf - 1
  · -- the whole target has been copied, so the byte before `n₁` is its last
    obtain ⟨last, hend⟩ : ∃ last, target.getLast? = some last := ⟨_, getLast?_eq_some_getLast hne⟩
    have hlast : m₁.last i n₁ = some last := by
      simp only [pathBuf] at hroom
      obtain ⟨k, rfl⟩ : ∃ k, n₁ = k + 1 := ⟨n₁ - 1, by omega⟩
      rw [Mem.last, h.read k.lt_succ_self, ← hend, getLast?_eq_getElem?]
      congr 1
      omega
    by_cases hs : last = slash
    · refine ⟨m₁, n₁, by simp [addSlash, hlast, hs], ?_⟩
      rw [hend, hs, if_pos rfl]
      exact .nil i m₁ (by omega)
    · obtain ⟨m₂, hw, h₂⟩ := m₁.write_copied i n₁ slash hb hroom
      refine ⟨m₂, n₁ + 1, by simp [addSlash, hroom, hlast, hs, hw], ?_⟩
      rwa [hend, if_neg (by simpa using hs)]
  · obtain rfl : n₁ = 255 := by
      simp only [pathBuf] at hroom
      omega
    exact ⟨m₁, 255, by simp [addSlash, pathBuf], .full i m₁ _⟩

/-- The splicing of a link writes the joined text, as far as it fits. -/
theorem buildPath_copied (i : Bool) (target : Bytes) (m : Mem) (r : Ptr) (rest : Bytes)
    (hb : (m.bufs i).length = pathBuf) (hr : r.src ≠ .buf i) (ht : m.Points r rest) (hne : target ≠ []) :
    ∃ m' n, buildPath i target m r = some (m', n) ∧ Mem.Copied i m 0 (joined target rest) m' n := by
  obtain ⟨m₁, n₁, hc, h₁⟩ := copyTarget_copied i target m 0 hb (by simp)
  have ht₁ := h₁.same.points hr ht
  have hb₁ := h₁.same.2.2.trans hb
  by_cases hrest : rest = []
  · subst hrest
    exact ⟨m₁, n₁, by simp [buildPath, hc, ht₁.read], by simpa [joined] using h₁⟩
  have hc₁ : rest.headD 0 ≠ 0 := fun h => hrest ((headD_eq_zero ht.1).1 h)
  obtain ⟨m₂, n₂, hsep, h₂⟩ := addSlash_copied hne hb₁ h₁
  have hn₂ : n₂ ≤ 255 := (h₂.le (h₁.le (by simp)).2).2
  obtain ⟨m₃, n₃, hcopy, h₃⟩ := copyRest_copied i pathBuf m₂ r n₂ rest (h₂.same.2.2.trans hb₁) hn₂
    (by omega) hr (h₂.same.points hr ht₁)
  refine ⟨m₃, n₃, ?_, ?_⟩
  · simp only [buildPath, hc, Option.bind_eq_bind, Option.bind_some, ht₁.read, if_neg hc₁, hsep, hcopy]
  · rw [joined_of_rest target hrest]
    exact h₁.append (by simp) (h₂.append (h₁.le (by simp)).2 h₃)

/-! ## A turn of the function is a turn along the text -/

/-- The locals hold the trail and point to the text. The text stands in the path or in the buffer
that was filled last, never in the one that is filled next. -/
structure Walker.Holds (w : Walker) (t : Textual) : Prop where
  stack : w.stack = t.top :: t.below
  depth : t.below.length < maxDepth
  nlinks : w.nlinks = t.nlinks
  trace : w.trace = t.trace
  bufs : ∀ i, (w.mem.bufs i).length = pathBuf
  points : w.mem.Points w.s t.text
  source : w.s.src ≠ .buf (!w.which)

/-- A turn that does not fault, and ends as the turn along the text ends. -/
def Refines (x : Option (Turn Walker)) (y : Turn Textual) : Prop :=
  (∃ w t, x = some (.next w) ∧ y = .next t ∧ w.Holds t) ∨
    ∃ w t r, x = some (.ret w r) ∧ y = .ret t r ∧ w.trace = t.trace

section Refine

variable {w : Walker} {t : Textual} (fs : Files) (followFinal : Bool) {path : Bytes}

theorem Refines.next (h : w.Holds t) : Refines (some (.next w)) (.next t) := .inl ⟨w, t, rfl, rfl, h⟩

theorem Refines.ret {r : Except Int Vnode} (h : w.trace = t.trace) : Refines (some (.ret w r)) (.ret t r) :=
  .inr ⟨w, t, r, rfl, rfl, h⟩

theorem Textual.start_eq (t : Textual) : (t.top :: t.below).getLast? = some t.start := by
  cases h : t.below with
  | nil => simp [Textual.start, h]
  | cons v vs => simp [Textual.start, h, getLast?_cons]

/-- A walker whose pointer moves within the object it is in. -/
theorem Walker.Holds.moveTo (h : w.Holds t) {p : Ptr} {text : Bytes} (hp : p.src = w.s.src)
    (hpoints : w.mem.Points p text) : { w with s := p }.Holds { t with text } :=
  { h with points := hpoints, source := fun hs => h.source (hp ▸ hs) }

/-- Past a component and its slashes. -/
theorem Walker.Holds.advance (h : w.Holds t) :
    ∃ w', w.advance (w.s.add (component t.text).length) = some w' ∧
      w'.Holds { t with text := behind t.text } := by
  obtain ⟨k, hk, hpoints⟩ := h.points.component.2.2.skip
  exact ⟨_, by simp [Walker.advance, hk], h.moveTo (by rfl) hpoints⟩

theorem Textual.up_text (t : Textual) : t.up.text = t.text := by
  unfold Textual.up
  split <;> rfl

theorem Walker.Holds.up (h : w.Holds t) :
    { w with stack := if 1 < w.stack.length then w.stack.tail else w.stack }.Holds t.up := by
  obtain ⟨top, below, text, nlinks, trace⟩ := t
  have hs := h.stack
  have hd := h.depth
  cases below with
  | nil => exact { h with stack := by simp [hs, Textual.up] }
  | cons v below =>
    exact { h with
      stack := by simp [hs, Textual.up]
      depth := by
        simp only [Textual.up, length_cons] at hd ⊢
        omega }

theorem cstr_points {m : Mem} {junk : Bytes} (h : m.bufs i = path ++ 0 :: junk) :
    m.Points ⟨.buf i, 0⟩ (cstr path) := by
  refine ⟨fun hz => by simpa using mem_takeWhile_imp hz, ?_⟩
  have hsplit : cstr path ++ path.dropWhile (· ≠ 0) = path := takeWhile_append_dropWhile
  simp only [Mem.from, Mem.object, h, drop_zero]
  cases hrest : path.dropWhile (· ≠ 0) with
  | nil =>
    rw [hrest, append_nil] at hsplit
    exact ⟨junk, by rw [hsplit]⟩
  | cons c cs =>
    -- the byte that ends the string inside the path
    obtain rfl : c = 0 := by
      have := head?_dropWhile_not (fun c : UInt8 => decide (c ≠ 0)) path
      rw [hrest] at this
      simpa using this
    refine ⟨cs ++ 0 :: junk, ?_⟩
    conv_lhs => rw [← hsplit, hrest]
    simp

/-- A text that has been copied and fits is ended by a zero byte. -/
theorem Mem.Copied.finish {m m' : Mem} (hb : (m.bufs i).length = pathBuf)
    (h : Mem.Copied i m 0 path m' n) (hn : n < pathBuf - 1) :
    ∃ m'' junk, m'.write i n 0 = some m'' ∧ Mem.Same i m m'' ∧ m''.bufs i = path ++ 0 :: junk := by
  have hi := h.index
  have hlen : (m'.bufs i).length = pathBuf := h.same.2.2.trans hb
  simp only [pathBuf] at hn hlen
  obtain rfl : n = path.length := by omega
  have hlt : path.length < (m'.bufs i).length := by omega
  obtain ⟨m'', hw, hs, hset⟩ := m'.write_spec i path.length 0 hlt
  refine ⟨m'', (m'.bufs i).drop (path.length + 1), hw, h.same.trans hs, ?_⟩
  have hbytes : (m'.bufs i).take path.length = path := by simpa using h.bytes
  rw [hset, set_eq_take_append_cons_drop, if_pos hlt, hbytes]

theorem resume_refines (h : w.Holds t) {m : Mem} (hne : path ≠ [])
    (hcopy : Mem.Copied (!w.which) w.mem 0 path m n) :
    Refines (resume w m (!w.which) n) (resumeText t path) := by
  have hi : n = min 255 path.length := by simpa using hcopy.index
  by_cases hlong : pathBuf - 1 ≤ path.length
  · have hn : pathBuf - 1 ≤ n := by
      simp only [pathBuf] at hlong ⊢
      omega
    simp only [resume, if_pos hn, resumeText, if_pos hlong]
    exact .ret h.trace
  have hn : ¬ pathBuf - 1 ≤ n := by
    simp only [pathBuf] at hlong ⊢
    omega
  obtain ⟨m', junk, hw, hsame, hbuf⟩ := hcopy.finish (h.bufs _) (not_le.1 hn)
  have hpoints : m'.Points ⟨.buf (!w.which), 0⟩ (cstr path) := cstr_points hbuf
  obtain ⟨c, cs, rfl⟩ := exists_cons_of_ne_nil hne
  have hfirst : m'.read ⟨.buf (!w.which), 0⟩ = some c := by simp [Mem.read, Mem.from, Mem.object, hbuf]
  have hbufs : ∀ i, (m'.bufs i).length = pathBuf := by
    intro i
    by_cases hi : i = !w.which
    · rw [hi, hsame.2.2, h.bufs]
    · obtain rfl : i = !!w.which := by
        cases i <;> cases hwh : w.which <;> simp_all
      rw [hsame.2.1, h.bufs]
  simp only [resume, if_neg hn, hw, hfirst, Option.bind_eq_bind, Option.bind_some, resumeText, if_neg hlong]
  by_cases hc : c = slash
  · obtain ⟨k, hk, hskip⟩ := hpoints.skip
    simp only [h.stack, t.start_eq, Option.bind_some, Walker.advance, hk, Textual.follow,
      head?_cons, hc, if_true]
    exact .next { stack := rfl, depth := by simp [maxDepth], nlinks := h.nlinks, trace := h.trace, bufs := hbufs,
                  points := hc ▸ hskip, source := by simp [Ptr.add] }
  · have hhead : (c :: cs).head? ≠ some slash := by simpa using hc
    simp only [if_neg hc, Textual.follow, if_neg hhead]
    exact .next { h with bufs := hbufs, points := hpoints, source := by simp }

theorem splice_refines (h : w.Holds t) {child : Vnode} {rest : Ptr} {text : Bytes}
    (hsrc : rest.src ≠ .buf (!w.which)) (hrest : w.mem.Points rest text) :
    Refines (splice fs w child rest) (spliceText fs t child text) := by
  unfold splice spliceText
  rw [h.nlinks]
  by_cases hloop : maxSymlinks < t.nlinks + 1
  · simp only [if_pos hloop]
    exact .ret h.trace
  simp only [if_neg hloop]
  cases fs.readlink child with
  | none => exact .ret h.trace
  | some readlink =>
    simp only [h.trace]
    cases readlink child with
    | error e => exact .ret rfl
    | ok target =>
      by_cases htlen : target.length = 0 ∨ pathBuf ≤ target.length
      · simp only [if_pos htlen]
        exact .ret rfl
      have hne : target ≠ [] := fun h0 => htlen (.inl (by simp [h0]))
      obtain ⟨m, n, hbuild, hcopy⟩ := buildPath_copied (!w.which) target w.mem rest text (h.bufs _) hsrc hrest hne
      simp only [if_neg htlen, hbuild, Option.bind_eq_bind, Option.bind_some]
      have hnej : joined target text ≠ [] := by simp [joined, hne]
      have hlink : Walker.Holds { w with nlinks := t.nlinks + 1, trace := t.trace ++ [.readlink child] }
          { t with nlinks := t.nlinks + 1, trace := t.trace ++ [.readlink child] } :=
        { h with nlinks := rfl, trace := rfl }
      exact resume_refines hlink hnej hcopy

theorem name_refines (h : w.Holds t) :
    Refines (name fs followFinal w (component t.text).length) (nameText fs followFinal t) := by
  unfold name nameText
  simp only [h.stack, head?_cons, Option.bind_eq_bind, Option.bind_some, h.points.component.2.1]
  cases fs.lookup t.top with
  | none => exact .ret h.trace
  | some lookup =>
    by_cases hdeep : maxDepth ≤ t.below.length + 1
    · simp only [length_cons, if_pos hdeep]
      exact .ret h.trace
    simp only [length_cons, if_neg hdeep, h.trace]
    have hasked : Walker.Holds { w with stack := t.top :: t.below,
                                        trace := t.trace ++ [.lookup t.top (component t.text)] }
        { t with trace := t.trace ++ [.lookup t.top (component t.text)] } :=
      { h with stack := rfl, trace := rfl }
    cases lookup t.top (component t.text) with
    | error e => exact .ret rfl
    | ok child =>
      obtain ⟨k, hk, hbehind⟩ := h.points.component.2.2.skip
      have hread : w.mem.read ((w.s.add (component t.text).length).add k) = some ((behind t.text).headD 0) :=
        hbehind.read
      have hfinal : (behind t.text).headD 0 ≠ 0 ↔ behind t.text ≠ [] := not_congr (headD_eq_zero hbehind.1)
      simp only [hk, Option.bind_some, hread]
      by_cases hlink : child.type = dtLnk ∧ (followFinal ∨ behind t.text ≠ [])
      · rw [if_pos hlink, if_pos (by rwa [hfinal])]
        have hsrc : ((w.s.add (component t.text).length).add k).src ≠ .buf (!w.which) := h.source
        exact splice_refines fs hasked hsrc hbehind
      · rw [if_neg hlink, if_neg (by rwa [hfinal])]
        have hroom : (t.top :: t.below).length < maxDepth := by simpa using hdeep
        have hpushed : Walker.Holds { w with stack := child :: t.top :: t.below,
                                             trace := t.trace ++ [.lookup t.top (component t.text)] }
            { t with top := child, below := t.top :: t.below,
                     trace := t.trace ++ [.lookup t.top (component t.text)] } :=
          { hasked with stack := rfl, depth := hroom }
        obtain ⟨w', hw', hholds⟩ := hpushed.advance
        simp only [push, if_pos hroom, Option.bind_some]
        rw [hw']
        exact .next hholds

theorem turn_refines (h : w.Holds t) : Refines (turn fs followFinal w) (turnText fs followFinal t) := by
  unfold turn turnText
  rw [h.points.read]
  obtain ⟨hlen, hcomp, -⟩ := h.points.component
  by_cases hend : t.text = []
  · simp only [hend, headD_nil, Option.bind_eq_bind, Option.bind_some, if_true, h.stack, head?_cons]
    exact .ret h.trace
  have hz : t.text.headD 0 ≠ 0 := fun hz => hend ((headD_eq_zero h.points.1).1 hz)
  simp only [Option.bind_eq_bind, Option.bind_some, if_neg hz, hlen, hcomp, if_neg hend, length_eq_zero_iff]
  by_cases hbad : component t.text = [] ∨ 255 < (component t.text).length
  · simp only [if_pos hbad]
    exact .ret h.trace
  simp only [if_neg hbad]
  by_cases hdot : component t.text = [dot]
  · obtain ⟨w', hw', hholds⟩ := h.advance
    simp only [if_pos hdot, hw', Option.bind_some]
    exact .next hholds
  simp only [if_neg hdot]
  by_cases hdots : component t.text = [dot, dot]
  · obtain ⟨w', hw', hholds⟩ := h.up.advance
    rw [Textual.up_text] at hw' hholds
    simp only [if_pos hdots]
    rw [hw']
    exact .next hholds
  simp only [if_neg hdots]
  exact name_refines fs followFinal h

/-- A run of the function ends as the run along the text ends. -/
theorem turns_refine (h : w.Holds t) (n : Nat) :
    ∃ w', turns fs followFinal n w = some (w', (turnsText fs followFinal n t).2) ∧
      w'.trace = (turnsText fs followFinal n t).1.trace := by
  induction n generalizing w t with
  | zero => exact ⟨w, rfl, h.trace⟩
  | succ n ih =>
    obtain ⟨w', t', hw, ht, hholds⟩ | ⟨w', t', r, hw, ht, htrace⟩ :=
      turn_refines fs followFinal h
    · simpa [turns, turnsText, hw, ht] using ih hholds
    · exact ⟨w', by simp [turns, turnsText, hw, ht], by simpa [turnsText, ht] using htrace⟩

end Refine

theorem Walker.enter_holds (start : Vnode) (rel : CString) (bufs : Bool → Vector UInt8 pathBuf) :
    ∃ w, Walker.enter start rel bufs = some w ∧ w.Holds (.enter start rel.bytes) := by
  have hpoints : Mem.Points ⟨rel.bytes ++ [0], fun i => (bufs i).toList⟩ ⟨.rel, 0⟩ rel.bytes :=
    ⟨rel.nul, [], by simp [Mem.from, Mem.object]⟩
  obtain ⟨k, hk, hskip⟩ := hpoints.skip
  refine ⟨_, by simp only [Walker.enter, Walker.advance, hk, Option.bind_eq_bind, Option.bind_some]; rfl, ?_⟩
  exact { stack := rfl, depth := by simp [Textual.enter, maxDepth], nlinks := rfl, trace := rfl,
          bufs := fun i => by simp, points := hskip, source := by simp [Ptr.add] }

/-! ## What a walk along a text reaches -/

/-- What a chain of lookups leads to from the start. -/
inductive Below (fs : Files) (start : Vnode) : Vnode → Prop
  | start : Below fs start start
  | lookup {dir child : Vnode} {name : Bytes} {lookup : Vnode → Bytes → Except Int Vnode} :
    Below fs start dir → fs.lookup dir = some lookup → lookup dir name = .ok child → Below fs start child

def Call.isReadlink : Call → Bool
  | .lookup _ _ => false
  | .readlink _ => true

/-- The links a walk has followed. -/
def followed (trace : List Call) : Nat := trace.countP Call.isReadlink

/-- The trail and the calls stay below the start, and every link that was read is counted. -/
structure Textual.Contained (fs : Files) (start : Vnode) (t : Textual) : Prop where
  top : Below fs start t.top
  below : ∀ v ∈ t.below, Below fs start v
  bottom : t.start = start
  calls : ∀ c ∈ t.trace, Below fs start c.vnode
  counted : followed t.trace ≤ t.nlinks
  budget : t.nlinks ≤ maxSymlinks

/-- What holds when a walk returns. -/
structure Returned (fs : Files) (start : Vnode) (t : Textual) (r : Except Int Vnode) : Prop where
  calls : ∀ c ∈ t.trace, Below fs start c.vnode
  links : followed t.trace ≤ maxSymlinks
  result : ∀ v, r = .ok v → Below fs start v

section Contained

variable {fs : Files} {start : Vnode} {t : Textual} (followFinal : Bool)

theorem Textual.Contained.returned_error (h : t.Contained fs start) (e : Int) :
    Returned fs start t (.error e) :=
  ⟨h.calls, h.counted.trans h.budget, by simp⟩

theorem Textual.Contained.count (h : t.Contained fs start) (hlt : t.nlinks < maxSymlinks) :
    Textual.Contained fs start { t with nlinks := t.nlinks + 1 } :=
  { h with counted := h.counted.trans (Nat.le_succ _), budget := hlt }

theorem component_append_length (text : Bytes) : (component text).length + (behind text).length ≤ text.length := by
  have hsplit : component text ++ text.dropWhile (· ≠ slash) = text := takeWhile_append_dropWhile
  have hlen := congrArg List.length hsplit
  have hdrop : (behind text).length ≤ (text.dropWhile (· ≠ slash)).length := length_dropWhile_le _ _
  rw [length_append] at hlen
  omega

theorem Textual.follow_start (t : Textual) (path : Bytes) : (t.follow path).start = t.start := by
  unfold Textual.follow
  split <;> rfl

/-- A new text is no longer than the path it comes from, and the budget is what it was. -/
theorem Textual.follow_bound (t : Textual) (path : Bytes) :
    (t.follow path).bound ≤ path.length + (maxSymlinks - t.nlinks) * pathBuf + 1 := by
  have hcstr : (cstr path).length ≤ path.length := (takeWhile_sublist _).length_le
  have hdrop : (dropSlashes (cstr path)).length ≤ (cstr path).length := length_dropWhile_le _ _
  unfold Textual.follow
  split
  · simp only [Textual.bound]
    omega
  · simp only [Textual.bound]
    omega

theorem Textual.Contained.follow (h : t.Contained fs start) (path : Bytes) : (t.follow path).Contained fs start := by
  have hbottom : (t.follow path).start = start := (t.follow_start path).trans h.bottom
  unfold Textual.follow at hbottom ⊢
  split at hbottom
  next hslash =>
    rw [if_pos hslash]
    exact { h with top := by rw [h.bottom]; exact .start, below := by simp, bottom := hbottom }
  next hslash =>
    rw [if_neg hslash]
    exact { h with bottom := hbottom }

theorem Textual.Contained.up (h : t.Contained fs start) : t.up.Contained fs start := by
  obtain ⟨top, below, text, nlinks, trace⟩ := t
  cases below with
  | nil => exact h
  | cons v below =>
    exact { h with
      top := h.below v (by simp)
      below := fun u hu => h.below u (mem_cons_of_mem v hu)
      bottom := by
        have hbottom := h.bottom
        rwa [Textual.start, getLastD_cons] at hbottom }

/-- A turn keeps the walk contained and takes from its bound, or returns. -/
def Turn.Good (fs : Files) (start : Vnode) (bound : Nat) : Turn Textual → Prop
  | .next t => t.Contained fs start ∧ t.bound < bound
  | .ret t r => Returned fs start t r

theorem resumeText_good (h : t.Contained fs start) (path : Bytes) {bound : Nat}
    (hb : pathBuf + (maxSymlinks - t.nlinks) * pathBuf ≤ bound) : (resumeText t path).Good fs start bound := by
  unfold resumeText
  split
  · exact h.returned_error eNameTooLong
  next hshort =>
    have hbound := t.follow_bound path
    refine ⟨h.follow path, ?_⟩
    simp only [pathBuf] at hshort hb hbound ⊢
    omega

theorem spliceText_good (h : t.Contained fs start) {child : Vnode} (hchild : Below fs start child) (rest : Bytes)
    {bound : Nat} (hb : (maxSymlinks - t.nlinks) * pathBuf ≤ bound) :
    (spliceText fs t child rest).Good fs start bound := by
  simp only [spliceText]
  split
  next hloop => exact ⟨h.calls, h.counted.trans h.budget, by simp⟩
  next hloop =>
    have hcounted := h.count (not_lt.1 hloop)
    split
    next => exact hcounted.returned_error eNosys
    next readlink _ =>
      have hread : Textual.Contained fs start
          { t with nlinks := t.nlinks + 1, trace := t.trace ++ [.readlink child] } :=
        { hcounted with
          calls := by
            intro c hc
            obtain hc | rfl : c ∈ t.trace ∨ c = .readlink child := by simpa using hc
            · exact h.calls c hc
            · exact hchild
          counted := by
            have := h.counted
            simp only [followed, countP_append, countP_singleton, Call.isReadlink] at this ⊢
            simpa using this }
      split
      next e _ => exact hread.returned_error e
      next target _ =>
        split
        · exact hread.returned_error eInval
        · refine resumeText_good hread _ ?_
          simp only [pathBuf, maxSymlinks] at hb hloop ⊢
          omega

theorem nameText_good (h : t.Contained fs start) (hc : component t.text ≠ []) :
    (nameText fs followFinal t).Good fs start t.bound := by
  have hlen := component_append_length t.text
  have hpos := length_pos_iff.2 hc
  unfold nameText
  split
  next => exact h.returned_error eNosys
  next lookup hlookup =>
    split
    next => exact h.returned_error eNameTooLong
    next hdeep =>
      have hasked : Textual.Contained fs start
          { t with trace := t.trace ++ [.lookup t.top (component t.text)] } :=
        { h with
          calls := by
            intro c hc
            obtain hc | rfl : c ∈ t.trace ∨ c = .lookup t.top (component t.text) := by simpa using hc
            · exact h.calls c hc
            · exact h.top
          counted := by simpa [followed, Call.isReadlink] using h.counted }
      simp only
      split
      next e _ => exact hasked.returned_error e
      next child hchild =>
        have hbelow : Below fs start child := .lookup h.top hlookup hchild
        split
        · refine spliceText_good hasked hbelow _ ?_
          simp only [Textual.bound]
          omega
        · refine ⟨{ hasked with
            top := hbelow
            below := ?_
            bottom := ?_ }, ?_⟩
          · intro v hv
            obtain rfl | hv := mem_cons.1 hv
            · exact h.top
            · exact h.below v hv
          · rw [Textual.start, getLastD_cons]
            exact h.bottom
          · simp only [Textual.bound]
            omega

theorem turnText_good (h : t.Contained fs start) : (turnText fs followFinal t).Good fs start t.bound := by
  have hlen := component_append_length t.text
  unfold turnText
  split
  · exact ⟨h.calls, h.counted.trans h.budget, fun v hv => by cases hv; exact h.top⟩
  split
  · exact h.returned_error eInval
  next hgood =>
    have hne : component t.text ≠ [] := fun h0 => hgood (.inl h0)
    have hpos := length_pos_iff.2 hne
    split
    · refine ⟨{ h with }, ?_⟩
      simp only [Textual.bound]
      omega
    split
    · refine ⟨{ h.up with }, ?_⟩
      have hn : t.up.nlinks = t.nlinks := by
        unfold Textual.up
        split <;> rfl
      simp only [Textual.bound, hn]
      omega
    · exact nameText_good followFinal h hne

/-- With as many turns as its bound a walk returns. -/
theorem turnsText_returned (h : t.Contained fs start) (hn : t.bound ≤ n) :
    ∃ t' r, turnsText fs followFinal n t = (t', some r) ∧ Returned fs start t' r := by
  induction n generalizing t with
  | zero => simp [Textual.bound] at hn
  | succ n ih =>
    have hgood := turnText_good followFinal h
    cases hturn : turnText fs followFinal t with
    | ret t' r =>
      rw [hturn] at hgood
      exact ⟨t', r, by simp [turnsText, hturn], hgood⟩
    | next t' =>
      rw [hturn] at hgood
      obtain ⟨t'', r, hrun, hret⟩ := ih hgood.1 (by have := hgood.2; omega)
      exact ⟨t'', r, by simp [turnsText, hturn, hrun], hret⟩

end Contained

theorem Textual.enter_contained (fs : Files) (start : Vnode) (rel : Bytes) :
    (Textual.enter start rel).Contained fs start :=
  ⟨.start, by simp [Textual.enter], rfl, by simp [Textual.enter], by simp [Textual.enter, followed],
    by simp [Textual.enter]⟩

theorem Textual.enter_bound (start : Vnode) (rel : Bytes) :
    (Textual.enter start rel).bound ≤ rel.length + maxSymlinks * pathBuf + 1 := by
  have hdrop : (dropSlashes rel).length ≤ rel.length := length_dropWhile_le _ _
  simp only [Textual.bound, Textual.enter, Nat.sub_zero]
  omega

/-- The walk ends after a bounded number of turns, without an access outside the trail, the path or the
buffers; it follows at most eight links, and what it returns and what it asks stays below the start. -/
theorem vfs_walk_from_ex_contained (fs : Files) (followFinal : Bool) (start : Vnode) (rel : CString)
    (bufs : Bool → Vector UInt8 pathBuf) :
    ∃ w₀ w r, Walker.enter start rel bufs = some w₀ ∧
      turns fs followFinal (rel.bytes.length + maxSymlinks * pathBuf + 1) w₀ = some (w, some r) ∧
      followed w.trace ≤ 8 ∧
      (∀ c ∈ w.trace, Below fs start c.vnode) ∧
      ∀ v, r = .ok v → Below fs start v := by
  obtain ⟨w₀, henter, hholds⟩ := Walker.enter_holds start rel bufs
  obtain ⟨t, r, hrun, hret⟩ := turnsText_returned followFinal
    (Textual.enter_contained fs start rel.bytes) (Textual.enter_bound start rel.bytes)
  obtain ⟨w, hw, htrace⟩ := turns_refine fs followFinal hholds
    (rel.bytes.length + maxSymlinks * pathBuf + 1)
  rw [hrun] at hw htrace
  refine ⟨w₀, w, r, henter, hw, ?_, ?_, hret.result⟩
  · rw [htrace]
    exact hret.links
  · rw [htrace]
    exact hret.calls

end EmbLinkOs.Vfs
