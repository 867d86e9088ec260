import Mathlib

set_option autoImplicit false

/-! # Serial numbers

A stream of fewer than `2 ^ 32` items is numbered by 32-bit words that start anywhere and wrap. The
items are counted by natural numbers here; `pos f n` is the word of item `n`. Differences of words
are differences of counts, and the comparisons by the sign of a difference agree with the order of
the counts where both are made. -/

namespace Serial

/-- The word of item `n` of a stream that starts at `f`. -/
def pos (f : UInt32) (n : Nat) : UInt32 := f + UInt32.ofNat n

variable {f : UInt32} {m n k : Nat}

@[simp] theorem pos_zero (f : UInt32) : pos f 0 = f := by simp [pos]

theorem pos_sub_toNat_mod (f : UInt32) (n m : Nat) :
    (pos f n - pos f m).toNat = (n + (2 ^ 32 - m % 2 ^ 32)) % 2 ^ 32 := by
  have hf := f.toNat_lt
  simp only [pos, UInt32.toNat_sub, UInt32.toNat_add, UInt32.toNat_ofNat']
  omega

theorem pos_sub_toNat (hmn : m ≤ n) (hn : n < 2 ^ 32) : (pos f n - pos f m).toNat = n - m := by
  rw [pos_sub_toNat_mod]
  omega

theorem pos_inj (hm : m < 2 ^ 32) (hn : n < 2 ^ 32) (h : pos f m = pos f n) : m = n := by
  have h0 : (pos f m - pos f n).toNat = 0 := by simp [h]
  rw [pos_sub_toNat_mod] at h0
  omega

theorem pos_add_ofNat (f : UInt32) (n k : Nat) : pos f n + UInt32.ofNat k = pos f (n + k) := by
  simp only [pos, UInt32.ofNat_add, UInt32.add_assoc]

theorem pos_add (f : UInt32) (n : Nat) (x : UInt32) : pos f n + x = pos f (n + x.toNat) := by
  rw [← pos_add_ofNat, UInt32.ofNat_toNat]

/-- A number that compares after `m` and not after `n` counts an item between them. -/
theorem between_of_compare (hmn : m ≤ n) (hn : n < 2 ^ 32) (hk : k < 2 ^ 32)
    (hgt : pos f k - pos f m ≠ 0) (hgt' : pos f k - pos f m < 0x80000000)
    (hle : pos f k - pos f n = 0 ∨ 0x80000000 ≤ pos f k - pos f n) : m < k ∧ k ≤ n := by
  have h1 : (pos f k - pos f m).toNat ≠ 0 := fun h => hgt (UInt32.toNat_inj.1 (by simpa using h))
  have h2 : (pos f k - pos f m).toNat < 0x80000000 := hgt'
  have h3 : (pos f k - pos f n).toNat = 0 ∨ 0x80000000 ≤ (pos f k - pos f n).toNat := by
    rcases hle with h | h
    · exact Or.inl (by simp [h])
    · exact Or.inr h
  rw [pos_sub_toNat_mod] at h1 h2 h3
  omega

end Serial
