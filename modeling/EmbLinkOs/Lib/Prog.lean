import Mathlib

set_option autoImplicit false

/-! # Programs that return an error code

`Prog σ ε α` is a program over a state `σ` that returns a value of `α` or fails with an error of
`ε`. The state reached is kept either way, as it is by code that mutates its arguments and then
returns an error code: a failure does **not** roll anything back unless the program itself does.

Reasoning is by `Prog.wp m Q E s`: run from `s`, the program `m` ends with a value that satisfies
`Q` or an error that satisfies `E`, each together with the state reached. The rules below compute
`wp` of every construct, so a proof follows the text of the program; `wp_mono` is the rule of
consequence that puts a callee's specification to use. -/

universe u v w x

/-- A program over state `σ` that returns a value or an error and keeps the state reached. -/
def Prog (σ : Type u) (ε : Type v) (α : Type w) : Type (max u v w) := σ → Except ε α × σ

namespace Prog

variable {σ : Type u} {ε : Type v} {α β : Type w}

/-- Run `m`, then `f` on its value; an error of `m` is the result. -/
def bind (m : Prog σ ε α) (f : α → Prog σ ε β) : Prog σ ε β := fun s =>
  match m s with
  | (.ok a, s') => f a s'
  | (.error e, s') => (.error e, s')

instance : Monad (Prog.{u, v, w} σ ε) where
  pure a := fun s => (.ok a, s)
  bind := Prog.bind

/-- The current state. -/
def get : Prog σ ε σ := fun s => (.ok s, s)

/-- Fail with `e`. -/
def fail (e : ε) : Prog σ ε α := fun s => (.error e, s)

/-- Replace the state by its image under `f`. -/
def modify (f : σ → σ) : Prog σ ε PUnit.{w + 1} := fun s => (.ok ⟨⟩, f s)

/-- Run `m` and hand its result over as a value, the way a caller keeps a return code instead of
    returning it. -/
def attempt (m : Prog σ ε α) : Prog σ ε (Except ε α) := fun s => (.ok (m s).1, (m s).2)

/-- Return the result an earlier `attempt` kept. -/
def ofExcept (r : Except ε α) : Prog σ ε α := fun s => (r, s)

/-- Run a program over a component `τ` of the state, read by `proj` and written back by `put`. -/
def zoom {τ : Type x} (proj : σ → τ) (put : τ → σ → σ) (m : Prog τ ε α) : Prog σ ε α := fun s =>
  ((m (proj s)).1, put (m (proj s)).2 s)

/-- `m`, run from `s`, ends in a value and state that satisfy `Q` or an error and state that
    satisfy `E`. -/
def wp (m : Prog σ ε α) (Q : α → σ → Prop) (E : ε → σ → Prop) (s : σ) : Prop :=
  match m s with
  | (.ok a, s') => Q a s'
  | (.error e, s') => E e s'

section Rules

variable {Q : α → σ → Prop} {E : ε → σ → Prop} {s : σ}

@[simp] theorem wp_pure (a : α) : wp (pure a) Q E s ↔ Q a s := Iff.rfl

@[simp] theorem wp_fail (e : ε) : wp (fail e) Q E s ↔ E e s := Iff.rfl

@[simp] theorem wp_bind (m : Prog σ ε α) (f : α → Prog σ ε β) {R : β → σ → Prop} :
    wp (m >>= f) R E s ↔ wp m (fun a s' => wp (f a) R E s') E s := by
  show wp (Prog.bind m f) R E s ↔ _
  unfold wp Prog.bind
  rcases m s with ⟨r, s'⟩
  cases r <;> rfl

@[simp] theorem wp_ite (c : Prop) [Decidable c] (m n : Prog σ ε α) :
    wp (if c then m else n) Q E s ↔ (c → wp m Q E s) ∧ (¬ c → wp n Q E s) := by
  by_cases h : c <;> simp [h]

/-- Consequence: a stronger specification of `m` gives every weaker one. -/
theorem wp_mono {m : Prog σ ε α} {Q' : α → σ → Prop} {E' : ε → σ → Prop} (h : wp m Q' E' s)
    (hQ : ∀ a s', Q' a s' → Q a s') (hE : ∀ e s', E' e s' → E e s') : wp m Q E s := by
  unfold wp at *
  rcases hm : m s with ⟨r, s'⟩
  rw [hm] at h
  cases r with
  | ok a => exact hQ a s' h
  | error e => exact hE e s' h

/-- A postcondition that always holds. -/
theorem wp_of_forall {m : Prog σ ε α} (hQ : ∀ a s', Q a s') (hE : ∀ e s', E e s') :
    wp m Q E s := by
  unfold wp
  rcases m s with ⟨r, s'⟩
  cases r with
  | ok a => exact hQ a s'
  | error e => exact hE e s'

/-- Two specifications of one program together. -/
theorem wp_and {m : Prog σ ε α} {Q' : α → σ → Prop} {E' : ε → σ → Prop} (h : wp m Q E s)
    (h' : wp m Q' E' s) : wp m (fun a s' => Q a s' ∧ Q' a s') (fun e s' => E e s' ∧ E' e s') s := by
  unfold wp at *
  rcases hm : m s with ⟨r, s'⟩
  rw [hm] at h h'
  cases r with
  | ok a => exact ⟨h, h'⟩
  | error e => exact ⟨h, h'⟩

/-- A program whose run is known. -/
theorem wp_run {m : Prog σ ε α} {a : α} {s' : σ} (hm : m s = (.ok a, s')) :
    wp m Q E s ↔ Q a s' := by
  unfold wp
  rw [hm]

/-- A run, step by step. -/
theorem bind_run {m : Prog σ ε α} {f : α → Prog σ ε β} {a : α} {s' : σ} (hm : m s = (.ok a, s')) :
    (m >>= f) s = f a s' := by
  show bind m f s = _
  unfold bind
  rw [hm]

/-- The two halves of a specification, read at the result of a run. -/
theorem wp_ok {m : Prog σ ε α} {a : α} {s' : σ} (h : wp m Q E s) (hm : m s = (.ok a, s')) :
    Q a s' := by
  unfold wp at h
  rwa [hm] at h

theorem wp_error {m : Prog σ ε α} {e : ε} {s' : σ} (h : wp m Q E s) (hm : m s = (.error e, s')) :
    E e s' := by
  unfold wp at h
  rwa [hm] at h

/-- What holds of the final state whatever the program returns. -/
theorem wp_snd {m : Prog σ ε α} {P : σ → Prop} (h : wp m (fun _ => P) (fun _ => P) s) :
    P (m s).2 := by
  unfold wp at h
  split at h
  · next a s' heq => rwa [heq]
  · next e s' heq => rwa [heq]

end Rules

@[simp] theorem wp_get {Q : σ → σ → Prop} {E : ε → σ → Prop} {s : σ} :
    wp (get : Prog σ ε σ) Q E s ↔ Q s s := Iff.rfl

@[simp] theorem wp_modify (f : σ → σ) {Q : PUnit.{w + 1} → σ → Prop} {E : ε → σ → Prop} {s : σ} :
    wp (modify f) Q E s ↔ Q ⟨⟩ (f s) := Iff.rfl

@[simp] theorem wp_attempt (m : Prog σ ε α) {Q : Except ε α → σ → Prop} {E : ε → σ → Prop}
    {s : σ} :
    wp (attempt m) Q E s ↔ wp m (fun a => Q (.ok a)) (fun e => Q (.error e)) s := by
  unfold wp attempt
  rcases m s with ⟨r, s'⟩
  cases r <;> rfl

@[simp] theorem wp_zoom {τ : Type x} (proj : σ → τ) (put : τ → σ → σ) (m : Prog τ ε α)
    {Q : α → σ → Prop} {E : ε → σ → Prop} {s : σ} :
    wp (zoom proj put m) Q E s
      ↔ wp m (fun a t => Q a (put t s)) (fun e t => E e (put t s)) (proj s) := by
  unfold wp zoom
  rcases m (proj s) with ⟨r, t⟩
  cases r <;> rfl

/-! ## What a program leaves alone -/

section Keeps

variable {σ ε α β γ : Type} {g : σ → γ} {m : Prog σ ε α}

/-- Whatever the program returns, `g` of the state is as before. -/
def Keeps (g : σ → γ) (m : Prog σ ε α) : Prop := ∀ s, g (m s).2 = g s

theorem Keeps.pure (a : α) : Keeps g (Pure.pure a : Prog σ ε α) := fun _ => rfl

theorem Keeps.fail (e : ε) : Keeps g (Prog.fail e : Prog σ ε α) := fun _ => rfl

theorem Keeps.modify {f : σ → σ} (h : ∀ s, g (f s) = g s) :
    Keeps g (Prog.modify f : Prog σ ε PUnit) := h

theorem Keeps.bind {f : α → Prog σ ε β} (h : Keeps g m) (hf : ∀ a, Keeps g (f a)) :
    Keeps g (m >>= f) := by
  intro s
  show g (Prog.bind m f s).2 = g s
  have hm := h s
  unfold Prog.bind
  split
  · next a s' heq =>
      rw [heq] at hm
      exact (hf a s').trans hm
  · next e s' heq =>
      rw [heq] at hm
      exact hm

theorem Keeps.get : Keeps g (Prog.get : Prog σ ε σ) := fun _ => rfl

theorem Keeps.ite {c : Prop} [Decidable c] {m' : Prog σ ε α} (h : Keeps g m) (h' : Keeps g m') :
    Keeps g (if c then m else m') := by
  split
  · exact h
  · exact h'

theorem Keeps.attempt (h : Keeps g m) : Keeps g (Prog.attempt m) := h

theorem Keeps.wp (h : Keeps g m) (s : σ) :
    wp m (fun _ s' => g s' = g s) (fun _ s' => g s' = g s) s := by
  have hs := h s
  unfold Prog.wp
  split
  · next a s' heq => rwa [heq] at hs
  · next e s' heq => rwa [heq] at hs

end Keeps

end Prog
