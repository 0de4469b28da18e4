/-
  File:      Frac/Lib/RingBuffer.lean
  Subject:   A ring buffer: `2 ^ aw` words of memory and two pointers one bit wider than an address, so
             that a full ring and an empty one differ. Nothing here names a circuit.

  * `RingBuffer.items` -- the words between the pointers, oldest first;
  * `RingBuffer.full_iff`, `RingBuffer.empty_iff` -- **what the comparisons of the pointers say**;
  * `RingBuffer.items_push`, `RingBuffer.items_pop` -- a write adds at the end, a read takes the first.
-/
import Mathlib

structure RingBuffer (aw : Nat) (α : Type*) where
  wr : BitVec (aw + 1)
  rd : BitVec (aw + 1)
  mem : BitVec aw → α

namespace RingBuffer

variable {aw : Nat} {α : Type*}

/-- The words stored. -/
def count (r : RingBuffer aw α) : Nat := (r.wr - r.rd).toNat

/-- The address of the `k`-th word. -/
def addr (r : RingBuffer aw α) (k : Nat) : BitVec aw := (r.rd + BitVec.ofNat (aw + 1) k).setWidth aw

/-- The words between the pointers, oldest first. -/
def items (r : RingBuffer aw α) : List α := (List.range r.count).map fun k => r.mem (r.addr k)

/-- No more words than the memory has. -/
def Wf (r : RingBuffer aw α) : Prop := r.count ≤ 2 ^ aw

/-- The comparison for a full ring: the first bits differ, the rest match. -/
def full (r : RingBuffer aw α) : Bool := r.wr == r.rd ^^^ BitVec.twoPow (aw + 1) aw

def empty (r : RingBuffer aw α) : Bool := r.wr == r.rd

def push (r : RingBuffer aw α) (x : α) : RingBuffer aw α :=
  { r with wr := r.wr + 1, mem := Function.update r.mem (r.wr.setWidth aw) x }

def pop (r : RingBuffer aw α) : RingBuffer aw α := { r with rd := r.rd + 1 }

@[simp] theorem length_items (r : RingBuffer aw α) : r.items.length = r.count := by simp [items]

/-! ## 1. Pointers -/

theorem wr_eq (r : RingBuffer aw α) : r.wr = r.rd + BitVec.ofNat (aw + 1) r.count := by
  rw [count, BitVec.ofNat_toNat, BitVec.setWidth_eq, BitVec.add_comm, BitVec.sub_add_cancel]

theorem xor_twoPow_of_lt {x n : Nat} (h : x < 2 ^ n) : x ^^^ 2 ^ n = x + 2 ^ n := by
  rw [← Nat.or_two_pow_eq_add_of_lt h]
  refine Nat.eq_of_testBit_eq fun i => ?_
  rw [Nat.testBit_xor, Nat.testBit_or, Nat.testBit_two_pow]
  by_cases hi : n = i
  · rw [← hi, Nat.testBit_lt_two_pow h, Bool.false_xor, Bool.false_or]
  · rw [decide_eq_false hi, Bool.xor_false, Bool.or_false]

/-- Flipping the top bit is adding it. -/
theorem xor_top (x : BitVec (aw + 1)) : x ^^^ BitVec.twoPow (aw + 1) aw = x + BitVec.twoPow (aw + 1) aw := by
  have htop : (BitVec.twoPow (aw + 1) aw).toNat = 2 ^ aw := BitVec.toNat_twoPow_of_lt (Nat.lt_succ_self aw)
  refine BitVec.eq_of_toNat_eq ?_
  rw [BitVec.toNat_xor, BitVec.toNat_add, htop]
  have hx : x.toNat < 2 ^ aw * 2 := x.isLt
  rw [Nat.pow_succ]
  by_cases h : x.toNat < 2 ^ aw
  · rw [xor_twoPow_of_lt h, Nat.mod_eq_of_lt (by omega)]
  · obtain ⟨y, hy⟩ : ∃ y, x.toNat = y + 2 ^ aw := ⟨x.toNat - 2 ^ aw, by omega⟩
    have hlow : y < 2 ^ aw := by omega
    rw [hy, ← xor_twoPow_of_lt hlow, Nat.xor_assoc, Nat.xor_self, Nat.xor_zero, xor_twoPow_of_lt hlow,
      Nat.add_assoc, ← Nat.mul_two, Nat.add_mod_right, Nat.mod_eq_of_lt (by omega)]

/-- **The ring is full** exactly when every word is taken. -/
theorem full_iff (r : RingBuffer aw α) : r.full = true ↔ r.count = 2 ^ aw := by
  have htop : (BitVec.twoPow (aw + 1) aw).toNat = 2 ^ aw := BitVec.toNat_twoPow_of_lt (Nat.lt_succ_self aw)
  rw [full, beq_iff_eq, xor_top, count]
  constructor
  · intro h
    rw [h, BitVec.add_comm, BitVec.add_sub_cancel, htop]
  · intro h
    have hdiff : r.wr - r.rd = BitVec.twoPow (aw + 1) aw := BitVec.eq_of_toNat_eq (h.trans htop.symm)
    rw [← hdiff, BitVec.add_comm, BitVec.sub_add_cancel]

theorem empty_iff (r : RingBuffer aw α) : r.empty = true ↔ r.count = 0 := by
  rw [empty, beq_iff_eq, count]
  constructor
  · intro h
    rw [h, BitVec.sub_self]
    rfl
  · intro h
    have hdiff : r.wr - r.rd = 0#(aw + 1) := BitVec.eq_of_toNat_eq h
    rw [← BitVec.sub_add_cancel r.wr r.rd, hdiff, BitVec.zero_add]

theorem one_toNat : (1 : BitVec (aw + 1)).toNat = 1 := by simp

theorem count_push {r : RingBuffer aw α} (h : r.count < 2 ^ aw) (x : α) : (r.push x).count = r.count + 1 := by
  have hdiff : r.wr + 1 - r.rd = (r.wr - r.rd) + 1 := by ring
  show (r.wr + 1 - r.rd).toNat = (r.wr - r.rd).toNat + 1
  have hlt : (r.wr - r.rd).toNat < 2 ^ aw := h
  rw [hdiff, BitVec.toNat_add, one_toNat, Nat.mod_eq_of_lt (by rw [Nat.pow_succ]; omega)]

theorem count_pop {r : RingBuffer aw α} (h : 0 < r.count) : r.pop.count + 1 = r.count := by
  have hdiff : r.wr - (r.rd + 1) + 1 = r.wr - r.rd := by ring
  have hsum := congrArg BitVec.toNat hdiff
  rw [BitVec.toNat_add, one_toNat] at hsum
  have hpos : 0 < (r.wr - r.rd).toNat := h
  have hlt := (r.wr - (r.rd + 1)).isLt
  show (r.wr - (r.rd + 1)).toNat + 1 = (r.wr - r.rd).toNat
  by_cases hwrap : (r.wr - (r.rd + 1)).toNat + 1 < 2 ^ (aw + 1)
  · rwa [Nat.mod_eq_of_lt hwrap] at hsum
  · rw [show (r.wr - (r.rd + 1)).toNat + 1 = 2 ^ (aw + 1) by omega, Nat.mod_self] at hsum
    omega

/-! ## 2. Contents -/

theorem addr_zero (r : RingBuffer aw α) : r.addr 0 = r.rd.setWidth aw := by
  rw [addr, show BitVec.ofNat (aw + 1) 0 = 0#(aw + 1) from rfl, BitVec.add_zero]

theorem addr_count (r : RingBuffer aw α) : r.addr r.count = r.wr.setWidth aw := by
  rw [addr, ← wr_eq]

theorem addr_pop (r : RingBuffer aw α) (k : Nat) : r.pop.addr k = r.addr (k + 1) := by
  have hsum : r.rd + 1 + BitVec.ofNat (aw + 1) k = r.rd + BitVec.ofNat (aw + 1) (k + 1) := by
    rw [BitVec.add_assoc, BitVec.add_comm 1, BitVec.ofNat_add]
    rfl
  show (r.rd + 1 + BitVec.ofNat (aw + 1) k).setWidth aw = _
  rw [hsum, addr]

/-- Two words of a ring lie at different addresses. -/
theorem addr_ne {r : RingBuffer aw α} {j k : Nat} (hj : j < k) (hk : k < 2 ^ aw) : r.addr j ≠ r.addr k := by
  intro h
  rw [addr, addr, BitVec.setWidth_add _ _ (Nat.le_succ aw), BitVec.setWidth_add _ _ (Nat.le_succ aw)] at h
  have hoff := congrArg BitVec.toNat (add_left_cancel h)
  rw [BitVec.toNat_setWidth, BitVec.toNat_setWidth, BitVec.toNat_ofNat, BitVec.toNat_ofNat,
    Nat.mod_mod_of_dvd _ (Nat.pow_dvd_pow 2 (Nat.le_succ aw)),
    Nat.mod_mod_of_dvd _ (Nat.pow_dvd_pow 2 (Nat.le_succ aw)), Nat.mod_eq_of_lt (hj.trans hk),
    Nat.mod_eq_of_lt hk] at hoff
  exact Nat.ne_of_lt hj hoff

/-- **A write adds at the end.** -/
theorem items_push {r : RingBuffer aw α} (h : r.count < 2 ^ aw) (x : α) : (r.push x).items = r.items ++ [x] := by
  rw [items, count_push h, List.range_succ, List.map_append, items]
  refine congrArg₂ (· ++ ·) (List.map_congr_left fun k hk => ?_) ?_
  · have hne : r.addr k ≠ r.wr.setWidth aw := by
      rw [← addr_count]
      exact addr_ne (List.mem_range.mp hk) h
    exact Function.update_of_ne hne x r.mem
  · have hlast : r.addr r.count = r.wr.setWidth aw := addr_count r
    show [Function.update r.mem (r.wr.setWidth aw) x (r.addr r.count)] = [x]
    rw [hlast, Function.update_self]

/-- **A read takes the first word.** -/
theorem items_pop {r : RingBuffer aw α} (h : 0 < r.count) :
    r.items = r.mem (r.rd.setWidth aw) :: r.pop.items := by
  rw [items, ← count_pop h, List.range_succ_eq_map, List.map_cons, List.map_map, addr_zero, items]
  refine congrArg _ (List.map_congr_left fun k _ => ?_)
  exact congrArg r.mem (addr_pop r k).symm

/-- **One edge**: the word read is the oldest of those there before the write. -/
theorem items_push_pop {r : RingBuffer aw α} (h : r.count < 2 ^ aw) (hpos : 0 < r.count) (x : α) :
    r.mem (r.rd.setWidth aw) :: (r.push x).pop.items = r.items ++ [x] := by
  have hpop := items_pop (r := r.push x) (by rw [count_push h]; exact Nat.succ_pos _)
  rw [items_push h x] at hpop
  have hhead := items_pop hpos
  rw [hhead, List.cons_append, List.cons.injEq] at hpop
  rw [hhead, List.cons_append, hpop.2]

end RingBuffer
