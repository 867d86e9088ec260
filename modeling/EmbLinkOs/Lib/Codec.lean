import Mathlib

set_option autoImplicit false

/-! # Byte codecs

A `Codec α` writes values of `α` as bytes and reads them back off the front of a byte list. Its law
says that a value written in front of anything is read back with the rest untouched, so codecs put
one after the other keep the law and a record's round trip is a rewrite with `Codec.dec_enc`. -/

/-- A way to write `α` as bytes and to read it off the front of a byte list. -/
structure Codec (α : Type) where
  enc : α → List UInt8
  dec : List UInt8 → Option (α × List UInt8)
  dec_enc : ∀ a rest, dec (enc a ++ rest) = some (a, rest)

attribute [simp] Codec.dec_enc

namespace Codec

/-- The `n` low bytes of a number, the lowest first. -/
def leBytes : Nat → Nat → List UInt8
  | 0, _ => []
  | n + 1, v => UInt8.ofNat v :: leBytes n (v / 256)

/-- The number whose bytes, the lowest first, are given. -/
def leNat : List UInt8 → Nat
  | [] => 0
  | b :: bs => b.toNat + 256 * leNat bs

@[simp] theorem length_leBytes (n v : Nat) : (leBytes n v).length = n := by
  induction n generalizing v with
  | zero => rfl
  | succ n ih => simp [leBytes, ih]

theorem leNat_leBytes (n v : Nat) (h : v < 256 ^ n) : leNat (leBytes n v) = v := by
  induction n generalizing v with
  | zero =>
    rw [pow_zero] at h
    simp only [leBytes, leNat]
    omega
  | succ n ih =>
    have hd : v / 256 < 256 ^ n := by
      rw [Nat.div_lt_iff_lt_mul (by norm_num)]
      rwa [pow_succ] at h
    have hb : (UInt8.ofNat v).toNat = v % 256 := by simp
    simp only [leBytes, leNat, ih _ hd, hb]
    omega

/-- Reading the first `n` bytes as `f` of them. -/
def prefixed {α : Type} (n : Nat) (f : List UInt8 → α) (p : List UInt8) : Option (α × List UInt8) :=
  if p.length < n then none else some (f (p.take n), p.drop n)

theorem prefixed_append {α : Type} {n : Nat} (f : List UInt8 → α) {x rest : List UInt8}
    (h : x.length = n) : prefixed n f (x ++ rest) = some (f x, rest) := by
  subst h
  simp [prefixed]

/-- A byte. -/
def u8 : Codec UInt8 where
  enc v := [v]
  dec := prefixed 1 fun x => x.headD 0
  dec_enc v rest := prefixed_append _ rfl

/-- Four bytes, little endian. -/
def u32 : Codec UInt32 where
  enc v := leBytes 4 v.toNat
  dec := prefixed 4 fun x => UInt32.ofNat (leNat x)
  dec_enc v rest := by
    rw [prefixed_append _ (length_leBytes _ _), leNat_leBytes 4 _ (by exact v.toNat_lt)]
    simp

/-- Eight bytes, little endian. -/
def u64 : Codec UInt64 where
  enc v := leBytes 8 v.toNat
  dec := prefixed 8 fun x => UInt64.ofNat (leNat x)
  dec_enc v rest := by
    rw [prefixed_append _ (length_leBytes _ _), leNat_leBytes 8 _ (by exact v.toNat_lt)]
    simp

/-- A buffer of fixed size. -/
def vec (n : Nat) : Codec (Vector UInt8 n) where
  enc v := v.toList
  dec := prefixed n fun x => Vector.ofFn fun i => x.getD i 0
  dec_enc v rest := by
    rw [prefixed_append _ (by simp)]
    congr 2
    ext i hi
    simp [List.getD_eq_getElem?_getD, hi]

@[simp] theorem length_enc_u8 (v : UInt8) : (u8.enc v).length = 1 := rfl
@[simp] theorem length_enc_u32 (v : UInt32) : (u32.enc v).length = 4 := length_leBytes _ _
@[simp] theorem length_enc_u64 (v : UInt64) : (u64.enc v).length = 8 := length_leBytes _ _
@[simp] theorem length_enc_vec (n : Nat) (v : Vector UInt8 n) : ((vec n).enc v).length = n := by
  simp [vec]

end Codec
