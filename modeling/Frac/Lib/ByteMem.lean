/-
  File:      Frac/Lib/ByteMem.lean
  Subject:   Words as bits and bytes, and a byte-addressed memory behind a bus that moves whole
             beats: strobed writes, beat reads, and what a sequence of strobed writes leaves.
             Addresses are `BitVec w`, so every address wraps at `2 ^ w` by itself.

  * `ofBits`, `byteAt`, `leNat` -- a word from its bits, a byte of a word, the little-endian number
    in some of its bytes;
  * `Mem.strobed` -- one beat written under byte strobes; `Mem.beat` -- one beat read;
  * `Mem.store m a f p` -- the bytes `f 0, …, f (p-1)` stored from `a` on, later ones winning
    where the range wraps onto itself; `Mem.store_at`, `Mem.store_outside` say what it holds;
  * `Mem.strobed_store` -- **a strobed beat continues a store**: the low `c` strobes at address
    `a + p` take the store of `p` bytes to the store of `p + c` bytes.
-/
import Mathlib.Data.BitVec
import Mathlib.Tactic.Ring

/-! ## 1. Bits and bytes -/

namespace Bits

/-- The word whose bit `k` is `f k`. -/
def ofBits : (n : Nat) → (Nat → Bool) → BitVec n
  | 0, _ => 0
  | n + 1, f => BitVec.cons (f n) (ofBits n f)

@[simp] theorem getLsbD_ofBits (n : Nat) (f : Nat → Bool) (k : Nat) :
    (ofBits n f).getLsbD k = (decide (k < n) && f k) := by
  induction n with
  | zero => simp [ofBits]
  | succ n ih =>
    rw [ofBits, BitVec.getLsbD_cons, ih]
    by_cases h : k = n
    · subst h
      simp
    · by_cases hk : k < n
      · simp [h, hk, Nat.lt_succ_of_lt hk]
      · simp [h, hk, show ¬ k < n + 1 by omega]

/-- Byte `j` of a word, byte 0 lowest. -/
def byteAt {n : Nat} (x : BitVec n) (j : Nat) : BitVec 8 := x.extractLsb' (8 * j) 8

theorem byteAt_extractLsb' {n : Nat} (x : BitVec n) (b k j : Nat) (hj : j < k) :
    byteAt (x.extractLsb' (8 * b) (8 * k)) j = byteAt x (b + j) := by
  apply BitVec.eq_of_getLsbD_eq
  intro t ht
  simp only [byteAt, BitVec.getLsbD_extractLsb', ht, decide_true, Bool.true_and]
  rw [decide_eq_true (by omega), Bool.true_and]
  congr 1
  omega

theorem byteAt_append_low {m n : Nat} (x : BitVec m) (y : BitVec n) {j : Nat}
    (hj : 8 * j + 8 ≤ n) : byteAt (x ++ y) j = byteAt y j :=
  BitVec.extractLsb'_append_eq_of_add_le hj

theorem byteAt_append_high {m n k : Nat} (x : BitVec m) (y : BitVec n) (hn : n = 8 * k) (j : Nat) :
    byteAt (x ++ y) (k + j) = byteAt x j := by
  rw [byteAt, BitVec.extractLsb'_append_eq_of_le (by omega), byteAt]
  congr 1
  omega

/-- A counter that does not wrap. -/
theorem toNat_succ {w : Nat} {x : BitVec w} (h : x.toNat + 1 < 2 ^ w) :
    (x + 1).toNat = x.toNat + 1 := by
  have hbig : 1 < 2 ^ w := by omega
  have hone : (1 : BitVec w).toNat = 1 := Nat.mod_eq_of_lt hbig
  rw [BitVec.toNat_add, hone, Nat.mod_eq_of_lt h]

theorem toNat_pred {w : Nat} {x : BitVec w} (h : 0 < x.toNat) : (x - 1).toNat = x.toNat - 1 := by
  have hlt := x.isLt
  have hbig : 1 < 2 ^ w := by omega
  have hone : (1 : BitVec w).toNat = 1 := Nat.mod_eq_of_lt hbig
  rw [BitVec.toNat_sub_of_le (show (1 : BitVec w).toNat ≤ x.toNat by omega), hone]

/-- The `n` bytes of a word from byte `k` on, read as a little-endian number. -/
def leNat {w : Nat} (x : BitVec w) (k : Nat) : Nat → Nat
  | 0 => 0
  | n + 1 => (byteAt x k).toNat + 256 * leNat x (k + 1) n

theorem leNat_eq {w : Nat} (x : BitVec w) (k n : Nat) :
    leNat x k n = (x.extractLsb' (8 * k) (8 * n)).toNat := by
  induction n generalizing k with
  | zero => simp [leNat]
  | succ n ih =>
      have hpow : 2 ^ (8 * (n + 1)) = 256 * 2 ^ (8 * n) := by rw [Nat.mul_succ, Nat.pow_add]; omega
      have hshift : x.toNat >>> (8 * (k + 1)) = x.toNat >>> (8 * k) / 256 := by
        rw [Nat.mul_succ, Nat.shiftRight_add, Nat.shiftRight_eq_div_pow _ 8]
      rw [leNat, ih, byteAt]
      simp only [BitVec.extractLsb'_toNat]
      rw [hshift, hpow, Nat.mod_mul]

/-- The number depends on its own bytes only. -/
theorem leNat_congr {w : Nat} {x x' : BitVec w} {k n : Nat}
    (h : ∀ j, k ≤ j → j < k + n → byteAt x j = byteAt x' j) : leNat x k n = leNat x' k n := by
  induction n generalizing k with
  | zero => rfl
  | succ n ih =>
      rw [leNat, leNat, h k (Nat.le_refl k) (by omega),
        ih fun j h1 h2 => h j (by omega) (by omega)]

end Bits

open Bits

/-! ## 2. A byte-addressed memory -/

/-- A byte at every address. -/
abbrev Mem (w : Nat) := BitVec w → BitVec 8

namespace Mem

variable {w : Nat}

/-- One beat of `k` bytes written at `a`: byte lane `j` goes to `a + j` where strobe `j` is set.
    Lane `j` is found from the address, as `x - a`. -/
def strobed {k : Nat} (m : Mem w) (a : BitVec w) (data : BitVec (8 * k)) (strb : BitVec k) : Mem w :=
  fun x => if strb.getLsbD (x - a).toNat then byteAt data (x - a).toNat else m x

/-- One beat of `k` bytes read at `a`, lane 0 lowest. -/
def beat (m : Mem w) (a : BitVec w) (k : Nat) : BitVec (8 * k) :=
  ofBits (8 * k) fun t => (m (a + BitVec.ofNat w (t / 8))).getLsbD (t % 8)

theorem byteAt_beat (m : Mem w) (a : BitVec w) {k j : Nat} (hj : j < k) :
    byteAt (m.beat a k) j = m (a + BitVec.ofNat w j) := by
  apply BitVec.eq_of_getLsbD_eq
  intro t ht
  simp only [byteAt, beat, BitVec.getLsbD_extractLsb', ht, decide_true, Bool.true_and,
    getLsbD_ofBits]
  rw [decide_eq_true (by omega), Bool.true_and, show (8 * j + t) / 8 = j by omega,
    show (8 * j + t) % 8 = t by omega]

/-- A slice of whole bytes of a beat is the beat read that many bytes further on. -/
theorem extractLsb'_beat (m : Mem w) (a : BitVec w) (n b k : Nat) (hk : b + k ≤ n) :
    (m.beat a n).extractLsb' (8 * b) (8 * k) = m.beat (a + BitVec.ofNat w b) k := by
  apply BitVec.eq_of_getLsbD_eq
  intro t ht
  simp only [beat, BitVec.getLsbD_extractLsb', getLsbD_ofBits, ht, decide_true, Bool.true_and]
  rw [decide_eq_true (by omega), Bool.true_and, show (8 * b + t) / 8 = b + t / 8 by omega,
    show (8 * b + t) % 8 = t % 8 by omega, BitVec.ofNat_add, BitVec.add_assoc]

/-- The bytes `f 0, …, f (p-1)` stored one after the other from `a` on. -/
def store (m : Mem w) (a : BitVec w) (f : Nat → BitVec 8) : Nat → Mem w
  | 0 => m
  | p + 1 => fun x => if x = a + BitVec.ofNat w p then f p else store m a f p x

theorem store_succ (m : Mem w) (a : BitVec w) (f : Nat → BitVec 8) (p : Nat) (x : BitVec w) :
    store m a f (p + 1) x = if x = a + BitVec.ofNat w p then f p else store m a f p x := rfl

/-- An address outside the stored range keeps its byte. -/
theorem store_outside (m : Mem w) (a : BitVec w) (f : Nat → BitVec 8) (p : Nat) (x : BitVec w)
    (hx : ∀ i < p, x ≠ a + BitVec.ofNat w i) : store m a f p x = m x := by
  induction p with
  | zero => rfl
  | succ p ih =>
    rw [store_succ, if_neg (hx p (Nat.lt_succ_self p))]
    exact ih fun i hi => hx i (Nat.lt_succ_of_lt hi)

/-- An address of the stored range holds the last byte stored to it. -/
theorem store_at (m : Mem w) (a : BitVec w) (f : Nat → BitVec 8) (p i : Nat) (hi : i < p)
    (hlast : ∀ j, i < j → j < p → a + BitVec.ofNat w j ≠ a + BitVec.ofNat w i) :
    store m a f p (a + BitVec.ofNat w i) = f i := by
  induction p with
  | zero => exact absurd hi (Nat.not_lt_zero i)
  | succ p ih =>
    by_cases h : i = p
    · subst h
      rw [store_succ, if_pos rfl]
    · have hip : i < p := by omega
      rw [store_succ, if_neg (hlast p hip (Nat.lt_succ_self p)).symm]
      exact ih hip fun j h1 h2 => hlast j h1 (Nat.lt_succ_of_lt h2)

/-- Only the bytes below `p` matter. -/
theorem store_congr (m : Mem w) (a : BitVec w) {f g : Nat → BitVec 8} (p : Nat)
    (h : ∀ i < p, f i = g i) : store m a f p = store m a g p := by
  induction p with
  | zero => rfl
  | succ p ih =>
    funext x
    rw [store_succ, store_succ, h p (Nat.lt_succ_self p), ih fun i hi => h i (Nat.lt_succ_of_lt hi)]

theorem ofNat_toNat_sub (x a : BitVec w) : a + BitVec.ofNat w (x - a).toNat = x := by
  rw [BitVec.ofNat_toNat, BitVec.setWidth_eq, BitVec.add_comm, BitVec.sub_add_cancel]

/-- `c` more bytes, `c` at most the size of the address space: the address decides by its
    distance from the first new byte. -/
theorem store_add (m : Mem w) (a : BitVec w) (f : Nat → BitVec 8) (p c : Nat) (hc : c ≤ 2 ^ w)
    (x : BitVec w) :
    store m a f (p + c) x =
      if (x - (a + BitVec.ofNat w p)).toNat < c then f (p + (x - (a + BitVec.ofNat w p)).toNat)
      else store m a f p x := by
  set b := a + BitVec.ofNat w p with hb
  induction c with
  | zero => simp
  | succ c ih =>
    have hx : x = a + BitVec.ofNat w (p + c) ↔ (x - b).toNat = c := by
      rw [BitVec.ofNat_add, ← BitVec.add_assoc, ← hb]
      constructor
      · rintro rfl
        rw [BitVec.add_comm b, BitVec.add_sub_cancel, BitVec.toNat_ofNat, Nat.mod_eq_of_lt hc]
      · intro h
        rw [← h, ofNat_toNat_sub]
    rw [← Nat.add_assoc, store_succ]
    by_cases h : (x - b).toNat = c
    · rw [if_pos (hx.mpr h), if_pos (by omega), h]
    · rw [if_neg (mt hx.mp h), ih (by omega)]
      by_cases h' : (x - b).toNat < c
      · rw [if_pos h', if_pos (by omega)]
      · rw [if_neg h', if_neg (by omega)]

/-- A store behind a store, of the bytes that come next, is one store. -/
theorem store_store (m : Mem w) (a : BitVec w) (f : Nat → BitVec 8) (p c : Nat) :
    (store m a f p).store (a + BitVec.ofNat w p) (fun i => f (p + i)) c = store m a f (p + c) := by
  induction c with
  | zero => rfl
  | succ c ih =>
      funext x
      rw [store_succ, ih, ← Nat.add_assoc, store_succ, BitVec.add_assoc, ← BitVec.ofNat_add]

/-- **A strobed beat continues a store**: with the low `c` strobes set and the lanes holding the
    next `c` bytes, the beat at `a + p` takes the store of `p` bytes to that of `p + c`. -/
theorem strobed_store {k : Nat} (m : Mem w) (a : BitVec w) (f : Nat → BitVec 8) (p c : Nat)
    (hc : c ≤ 2 ^ w) (data : BitVec (8 * k)) (strb : BitVec k)
    (hs : ∀ j, strb.getLsbD j = decide (j < c)) (hd : ∀ j < c, byteAt data j = f (p + j)) :
    (store m a f p).strobed (a + BitVec.ofNat w p) data strb = store m a f (p + c) := by
  funext x
  rw [store_add m a f p c hc, strobed, hs]
  by_cases h : (x - (a + BitVec.ofNat w p)).toNat < c
  · rw [decide_eq_true h, if_pos rfl, if_pos h, hd _ h]
  · rw [decide_eq_false h, if_neg Bool.false_ne_true, if_neg h]

end Mem
