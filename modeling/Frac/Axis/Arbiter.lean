/-
  File:      Frac/Axis/Arbiter.lean
  Subject:   The priority encoder (taxi_penc.sv), a tree that halves its input level by level, and the
             arbiter around it (taxi_arbiter.sv).

  * `stageValid`, `stageEnc` -- the entries of the tree; `pencValid`, `pencIndex`, `pencMask` its outputs;
  * **`penc_finds`** -- for every width and mask the tree finds the lowest (with `LSB_HIGH_PRIO`) or the
    highest bit that is set, and its mask has that bit alone;
  * `Arbiter` -- the registers; `Arbiter.edge` -- the module, by its parameters;
  * **`arbiter_run`** -- in every run, whatever the parameters, the grant is the bit of the granted
    index alone, or nothing; it is made to a port that requests, and stays for its acknowledge.
-/
import Frac.Lib.Clocked

open Clocked

namespace Frac.Axis

/-! ## 1. The tree -/

/-- `stage_valid[l][n]`: a bit is set in the `n`-th block of `2 ^ (l + 1)`. -/
def stageValid (mask : Nat → Bool) : Nat → Nat → Bool
  | 0, n => mask (2 * n) || mask (2 * n + 1)
  | l + 1, n => stageValid mask l (2 * n) || stageValid mask l (2 * n + 1)

/-- The `n`-th entry of `stage_enc[l]`, `l + 1` bits. -/
def stageEnc (lsbHighPrio : Bool) (mask : Nat → Bool) : (l : Nat) → Nat → BitVec (l + 1)
  | 0, n => BitVec.ofBool (if lsbHighPrio then !mask (2 * n) else mask (2 * n + 1))
  | l + 1, n =>
    if lsbHighPrio then
      if stageValid mask l (2 * n) then BitVec.cons false (stageEnc lsbHighPrio mask l (2 * n))
      else BitVec.cons true (stageEnc lsbHighPrio mask l (2 * n + 1))
    else
      if stageValid mask l (2 * n + 1) then BitVec.cons true (stageEnc lsbHighPrio mask l (2 * n + 1))
      else BitVec.cons false (stageEnc lsbHighPrio mask l (2 * n))

/-- **A block is valid** when one of its bits is set. -/
theorem stageValid_iff (mask : Nat → Bool) (l n : Nat) :
    stageValid mask l n = true ↔ ∃ k < 2 ^ (l + 1), mask (n * 2 ^ (l + 1) + k) = true := by
  induction l generalizing n with
  | zero =>
      rw [stageValid, Bool.or_eq_true, Nat.mul_comm 2 n]
      constructor
      · rintro (h | h)
        · exact ⟨0, by decide, h⟩
        · exact ⟨1, by decide, h⟩
      · rintro ⟨k, hk, h⟩
        obtain rfl | rfl : k = 0 ∨ k = 1 := by omega
        · exact Or.inl h
        · exact Or.inr h
  | succ l ih =>
      have hpow : 2 ^ (l + 1 + 1) = 2 * 2 ^ (l + 1) := by rw [Nat.pow_succ, Nat.mul_comm]
      have hlow : ∀ k, 2 * n * 2 ^ (l + 1) + k = n * 2 ^ (l + 1 + 1) + k := fun k => by rw [hpow]; ring
      have hhigh : ∀ k, (2 * n + 1) * 2 ^ (l + 1) + k = n * 2 ^ (l + 1 + 1) + (2 ^ (l + 1) + k) :=
        fun k => by rw [hpow]; ring
      rw [stageValid, Bool.or_eq_true, ih, ih]
      constructor
      · rintro (⟨k, hk, h⟩ | ⟨k, hk, h⟩)
        · exact ⟨k, by omega, by rw [← hlow]; exact h⟩
        · exact ⟨2 ^ (l + 1) + k, by omega, by rw [← hhigh]; exact h⟩
      · rintro ⟨k, hk, h⟩
        by_cases hside : k < 2 ^ (l + 1)
        · exact Or.inl ⟨k, hside, by rw [hlow]; exact h⟩
        · refine Or.inr ⟨k - 2 ^ (l + 1), by omega, ?_⟩
          rw [hhigh, Nat.add_sub_cancel' (by omega)]
          exact h

/-- The first set bit of a block, counted from its start. -/
def FirstIn (mask : Nat → Bool) (start k : Nat) : Prop :=
  mask (start + k) = true ∧ ∀ j < k, mask (start + j) = false

/-- The last set bit of a block of `size`. -/
def LastIn (mask : Nat → Bool) (start size k : Nat) : Prop :=
  mask (start + k) = true ∧ ∀ j, k < j → j < size → mask (start + j) = false

theorem toNat_cons (b : Bool) {w : Nat} (x : BitVec w) :
    (BitVec.cons b x).toNat = (if b then 2 ^ w else 0) + x.toNat := by
  rw [BitVec.toNat_cons', Nat.shiftLeft_eq]
  cases b <;> simp

/-- **The entry of a valid block**, lowest first. -/
theorem stageEnc_first (mask : Nat → Bool) {l n : Nat} (h : stageValid mask l n = true) :
    FirstIn mask (n * 2 ^ (l + 1)) (stageEnc true mask l n).toNat := by
  induction l generalizing n with
  | zero =>
      rw [stageValid, Bool.or_eq_true] at h
      rw [stageEnc, if_pos rfl, Nat.mul_comm n]
      cases hlow : mask (2 * n) with
      | true => exact ⟨hlow, fun j hj => absurd hj (Nat.not_lt_zero j)⟩
      | false =>
          rw [hlow] at h
          refine ⟨h.resolve_left Bool.false_ne_true, fun j hj => ?_⟩
          obtain rfl : j = 0 := Nat.lt_one_iff.mp hj
          exact hlow
  | succ l ih =>
      have hpow : 2 ^ (l + 1 + 1) = 2 * 2 ^ (l + 1) := by rw [Nat.pow_succ, Nat.mul_comm]
      have hlow : 2 * n * 2 ^ (l + 1) = n * 2 ^ (l + 1 + 1) := by rw [hpow]; ring
      have hhigh : (2 * n + 1) * 2 ^ (l + 1) = n * 2 ^ (l + 1 + 1) + 2 ^ (l + 1) := by rw [hpow]; ring
      rw [stageEnc, if_pos rfl]
      by_cases hv : stageValid mask l (2 * n) = true
      · rw [if_pos hv, toNat_cons, if_neg Bool.false_ne_true, Nat.zero_add, ← hlow]
        exact ih hv
      · rw [if_neg hv, toNat_cons, if_pos rfl]
        have hright : stageValid mask l (2 * n + 1) = true := by
          rw [stageValid, Bool.or_eq_true] at h
          exact h.resolve_left hv
        obtain ⟨hset, hbefore⟩ := ih hright
        rw [hhigh, Nat.add_assoc] at hset
        refine ⟨hset, fun j hj => ?_⟩
        by_cases hside : j < 2 ^ (l + 1)
        · rw [← hlow]
          by_contra hne
          exact hv ((stageValid_iff mask l (2 * n)).mpr ⟨j, hside, by simpa using hne⟩)
        · have hj' := hbefore (j - 2 ^ (l + 1)) (by omega)
          rwa [hhigh, Nat.add_assoc, Nat.add_sub_cancel' (by omega)] at hj'

/-- **The entry of a valid block**, highest first. -/
theorem stageEnc_last (mask : Nat → Bool) {l n : Nat} (h : stageValid mask l n = true) :
    LastIn mask (n * 2 ^ (l + 1)) (2 ^ (l + 1)) (stageEnc false mask l n).toNat := by
  induction l generalizing n with
  | zero =>
      rw [stageValid, Bool.or_eq_true] at h
      rw [stageEnc, if_neg Bool.false_ne_true, Nat.mul_comm n]
      cases hhigh : mask (2 * n + 1) with
      | true => exact ⟨hhigh, fun j hj hj' => absurd hj (by simpa using Nat.le_of_lt_succ hj')⟩
      | false =>
          rw [hhigh] at h
          refine ⟨h.resolve_right Bool.false_ne_true, fun j hj hj' => ?_⟩
          obtain rfl : j = 1 := by
            have hpos : 0 < j := hj
            omega
          exact hhigh
  | succ l ih =>
      have hpow : 2 ^ (l + 1 + 1) = 2 * 2 ^ (l + 1) := by rw [Nat.pow_succ, Nat.mul_comm]
      have hlow : 2 * n * 2 ^ (l + 1) = n * 2 ^ (l + 1 + 1) := by rw [hpow]; ring
      have hhigh : (2 * n + 1) * 2 ^ (l + 1) = n * 2 ^ (l + 1 + 1) + 2 ^ (l + 1) := by rw [hpow]; ring
      rw [stageEnc, if_neg Bool.false_ne_true]
      by_cases hv : stageValid mask l (2 * n + 1) = true
      · rw [if_pos hv, toNat_cons, if_pos rfl]
        obtain ⟨hset, hafter⟩ := ih hv
        rw [hhigh, Nat.add_assoc] at hset
        refine ⟨hset, fun j hj hj' => ?_⟩
        have hnext := hafter (j - 2 ^ (l + 1)) (by omega) (by omega)
        rwa [hhigh, Nat.add_assoc, Nat.add_sub_cancel' (by omega)] at hnext
      · rw [if_neg hv, toNat_cons, if_neg Bool.false_ne_true, Nat.zero_add]
        have hleft : stageValid mask l (2 * n) = true := by
          rw [stageValid, Bool.or_eq_true] at h
          exact h.resolve_right hv
        obtain ⟨hset, hafter⟩ := ih hleft
        rw [hlow] at hset hafter
        refine ⟨hset, fun j hj hj' => ?_⟩
        by_cases hside : j < 2 ^ (l + 1)
        · exact hafter j hj hside
        · by_contra hne
          refine hv ((stageValid_iff mask l (2 * n + 1)).mpr ⟨j - 2 ^ (l + 1), by omega, ?_⟩)
          rw [hhigh, Nat.add_assoc, Nat.add_sub_cancel' (by omega)]
          simpa using hne

/-! ## 2. The encoder -/

section Penc

variable {width : Nat}

/-- `LEVELS`. -/
def pencLevels (width : Nat) : Nat := if width > 2 then Nat.clog 2 width else 1

/-- `output_valid`, by `input_mask`; the padding of the tree's input is zero. -/
def pencValid (input : BitVec width) : Bool := stageValid input.getLsbD (pencLevels width - 1) 0

/-- `output_index`. -/
def pencIndex (lsbHighPrio : Bool) (input : BitVec width) : BitVec (Nat.clog 2 width) :=
  (stageEnc lsbHighPrio input.getLsbD (pencLevels width - 1) 0).setWidth _

/-- `output_mask`. -/
def pencMask (lsbHighPrio : Bool) (input : BitVec width) : BitVec width :=
  (BitVec.ofBool (pencValid input)).setWidth width <<< (pencIndex lsbHighPrio input).toNat

theorem pencLevels_pos (width : Nat) : 0 < pencLevels width := by
  unfold pencLevels
  split
  · exact Nat.clog_pos (by decide) (by omega)
  · exact Nat.one_pos

theorem width_le_levels (width : Nat) : width ≤ 2 ^ pencLevels width := by
  unfold pencLevels
  split
  · exact Nat.le_pow_clog (by decide) width
  · omega

theorem pencValid_iff (input : BitVec width) : pencValid input = true ↔ ∃ k, input.getLsbD k = true := by
  have hlevels := pencLevels_pos width
  rw [pencValid, stageValid_iff, Nat.sub_add_cancel hlevels]
  constructor
  · rintro ⟨k, -, h⟩
    exact ⟨0 * 2 ^ pencLevels width + k, h⟩
  · rintro ⟨k, h⟩
    have hk : k < width := BitVec.lt_of_getLsbD h
    exact ⟨k, Nat.lt_of_lt_of_le hk (width_le_levels width), by rw [Nat.zero_mul, Nat.zero_add]; exact h⟩

/-- The index fits its port. -/
theorem pencIndex_toNat {lsbHighPrio : Bool} {input : BitVec width}
    (h : (stageEnc lsbHighPrio input.getLsbD (pencLevels width - 1) 0).toNat < width) :
    (pencIndex lsbHighPrio input).toNat =
      (stageEnc lsbHighPrio input.getLsbD (pencLevels width - 1) 0).toNat := by
  rw [pencIndex, BitVec.toNat_setWidth]
  exact Nat.mod_eq_of_lt (Nat.lt_of_lt_of_le h (Nat.le_pow_clog (by decide) width))

theorem pencMask_eq {lsbHighPrio : Bool} {input : BitVec width} (h : pencValid input = true) :
    pencMask lsbHighPrio input = BitVec.twoPow width (pencIndex lsbHighPrio input).toNat := by
  have hone : (BitVec.ofBool true).setWidth width = BitVec.ofNat width 1 := by
    refine BitVec.eq_of_toNat_eq ?_
    rw [BitVec.toNat_setWidth, BitVec.toNat_ofNat]
    rfl
  rw [pencMask, h, hone, BitVec.twoPow]

/-- The bit an encoder has to find: the lowest that is set, or the highest. -/
def Encodes (lsbHighPrio : Bool) (input : BitVec width) (k : Nat) : Prop :=
  input.getLsbD k = true ∧ ∀ j, (if lsbHighPrio then j < k else k < j) → input.getLsbD j = false

theorem stageEnc_encodes {lsbHighPrio : Bool} {input : BitVec width} (h : pencValid input = true) :
    Encodes lsbHighPrio input (stageEnc lsbHighPrio input.getLsbD (pencLevels width - 1) 0).toNat := by
  cases lsbHighPrio with
  | true =>
      obtain ⟨hset, hbefore⟩ := stageEnc_first _ h
      rw [Nat.zero_mul, Nat.zero_add] at hset
      refine ⟨hset, fun j hj => ?_⟩
      have hj' := hbefore j hj
      rwa [Nat.zero_mul, Nat.zero_add] at hj'
  | false =>
      obtain ⟨hset, hafter⟩ := stageEnc_last _ h
      rw [Nat.zero_mul, Nat.zero_add] at hset
      refine ⟨hset, fun j hj => ?_⟩
      by_cases hlt : j < width
      · have hj' := hafter j hj (by
          rw [Nat.sub_add_cancel (pencLevels_pos width)]
          exact Nat.lt_of_lt_of_le hlt (width_le_levels width))
        rwa [Nat.zero_mul, Nat.zero_add] at hj'
      · exact BitVec.getLsbD_of_ge input j (Nat.le_of_not_lt hlt)

/-- **The encoder**, for every width and mask: it is valid when a bit is set, its index is the lowest
    such bit (with `LSB_HIGH_PRIO`) or the highest, and its mask has that bit alone. -/
theorem penc_finds (lsbHighPrio : Bool) (input : BitVec width) :
    if pencValid input then
      Encodes lsbHighPrio input (pencIndex lsbHighPrio input).toNat ∧
        pencMask lsbHighPrio input = BitVec.twoPow width (pencIndex lsbHighPrio input).toNat
    else input = 0 ∧ pencMask lsbHighPrio input = 0 := by
  split
  · next h =>
      have henc : Encodes lsbHighPrio input _ := stageEnc_encodes h
      rw [pencIndex_toNat (BitVec.lt_of_getLsbD henc.1)]
      refine ⟨henc, ?_⟩
      rw [pencMask_eq h, pencIndex_toNat (BitVec.lt_of_getLsbD henc.1)]
  · next h =>
      have hzero : input = 0 := by
        refine BitVec.eq_of_getLsbD_eq fun k _ => ?_
        rw [Bool.eq_false_iff.mpr fun hk => h ((pencValid_iff input).mpr ⟨k, hk⟩)]
        exact BitVec.getLsbD_zero.symm
      refine ⟨hzero, ?_⟩
      rw [pencMask, Bool.eq_false_iff.mpr h]
      refine BitVec.eq_of_toNat_eq ?_
      simp

end Penc

/-! ## 3. The arbiter -/

/-- The parameters beside `PORTS`. -/
structure ArbiterConfig where
  arbRoundRobin : Bool
  arbBlock : Bool
  arbBlockAck : Bool
  lsbHighPrio : Bool

structure Arbiter (ports : Nat) where
  grantReg : BitVec ports
  grantValidReg : Bool
  grantIndexReg : BitVec (Nat.clog 2 ports)
  maskReg : BitVec ports

namespace Arbiter

variable {ports : Nat}

def reset (ports : Nat) : Arbiter ports := ⟨0, false, 0, 0⟩

/-- The grant of a port, and the mask that puts the ports after it first. -/
def grantTo (c : ArbiterConfig) (req mask : BitVec ports) : Arbiter ports where
  grantReg := pencMask c.lsbHighPrio req
  grantValidReg := true
  grantIndexReg := pencIndex c.lsbHighPrio req
  maskReg := mask

/-- `mask_next` after a grant of port `index`. -/
def maskAfter (c : ArbiterConfig) (index : Nat) : BitVec ports :=
  if c.lsbHighPrio then BitVec.allOnes ports <<< (index + 1) else BitVec.allOnes ports >>> (ports - index)

/-- A grant is not given up at this edge. -/
def held (c : ArbiterConfig) (a : Arbiter ports) (req ack : BitVec ports) : Bool :=
  (c.arbBlock && !c.arbBlockAck && (a.grantReg &&& req) != 0) ||
    (c.arbBlock && c.arbBlockAck && a.grantValidReg && (a.grantReg &&& ack) == 0)

/-- The clock edge with `rst` low. -/
def edge (c : ArbiterConfig) (a : Arbiter ports) (req ack : BitVec ports) : Arbiter ports :=
  if a.held c req ack then a
  else if pencValid req then
    if c.arbRoundRobin then
      if pencValid (req &&& a.maskReg) then
        grantTo c (req &&& a.maskReg) (maskAfter c (pencIndex c.lsbHighPrio (req &&& a.maskReg)).toNat)
      else grantTo c req (maskAfter c (pencIndex c.lsbHighPrio req).toNat)
    else grantTo c req a.maskReg
  else ⟨0, false, 0, a.maskReg⟩

/-- The input pins at one clock edge. -/
structure In (ports : Nat) where
  rst : Bool
  req : BitVec ports
  ack : BitVec ports

def clock (c : ArbiterConfig) (a : Arbiter ports) (i : In ports) : Arbiter ports :=
  if i.rst then reset ports else a.edge c i.req i.ack

/-- The grant is the bit of the granted index alone, or nothing. -/
def OneHot (a : Arbiter ports) : Prop :=
  if a.grantValidReg then
    a.grantIndexReg.toNat < ports ∧ a.grantReg = BitVec.twoPow ports a.grantIndexReg.toNat
  else a.grantReg = 0

theorem grantTo_oneHot (c : ArbiterConfig) {req : BitVec ports} (h : pencValid req = true) (mask : BitVec ports) :
    (grantTo c req mask).OneHot ∧ req.getLsbD (grantTo c req mask).grantIndexReg.toNat = true := by
  have hfinds := penc_finds c.lsbHighPrio req
  rw [if_pos h] at hfinds
  exact ⟨⟨BitVec.lt_of_getLsbD hfinds.1.1, hfinds.2⟩, hfinds.1.1⟩

variable {c : ArbiterConfig} {a : Arbiter ports} {req ack : BitVec ports}

/-- **A grant that is not held** goes to a port that requests, and is made whenever one does. -/
theorem edge_grants (hfree : a.held c req ack = false) :
    (a.edge c req ack).OneHot ∧ (a.edge c req ack).grantValidReg = pencValid req ∧
      ((a.edge c req ack).grantValidReg = true →
        req.getLsbD (a.edge c req ack).grantIndexReg.toNat = true) := by
  unfold edge
  rw [hfree, if_neg Bool.false_ne_true]
  cases hreq : pencValid req with
  | false =>
      rw [if_neg Bool.false_ne_true]
      exact ⟨rfl, rfl, fun h => absurd h Bool.false_ne_true⟩
  | true =>
      rw [if_pos rfl]
      cases c.arbRoundRobin with
      | false =>
          obtain ⟨hone, hset⟩ := grantTo_oneHot c hreq a.maskReg
          exact ⟨hone, rfl, fun _ => hset⟩
      | true =>
          rw [if_pos rfl]
          cases hmasked : pencValid (req &&& a.maskReg) with
          | true =>
              obtain ⟨hone, hset⟩ := grantTo_oneHot c hmasked
                (maskAfter c (pencIndex c.lsbHighPrio (req &&& a.maskReg)).toNat)
              rw [BitVec.getLsbD_and, Bool.and_eq_true] at hset
              exact ⟨hone, rfl, fun _ => hset.1⟩
          | false =>
              obtain ⟨hone, hset⟩ := grantTo_oneHot c hreq (maskAfter c (pencIndex c.lsbHighPrio req).toNat)
              exact ⟨hone, rfl, fun _ => hset⟩

theorem edge_oneHot (h : a.OneHot) (req ack : BitVec ports) : (a.edge c req ack).OneHot := by
  cases hheld : a.held c req ack with
  | false => exact (edge_grants hheld).1
  | true =>
      rw [edge, hheld, if_pos rfl]
      exact h

theorem clock_oneHot (h : a.OneHot) (i : In ports) : (a.clock c i).OneHot := by
  unfold clock
  cases i.rst with
  | true => rfl
  | false => exact edge_oneHot h i.req i.ack

theorem reset_oneHot : (reset ports).OneHot := rfl

theorem run_oneHot (c : ArbiterConfig) (is : List (In ports)) : (run (clock c) (reset ports) is).OneHot :=
  run_all (P := OneHot) (fun _ i h => clock_oneHot h i) reset_oneHot is

/-- The acknowledge of the granted port. -/
theorem and_twoPow {k : Nat} (hk : k < ports) (x : BitVec ports) :
    (BitVec.twoPow ports k &&& x == 0) = !x.getLsbD k := by
  cases hx : x.getLsbD k with
  | false =>
      refine beq_iff_eq.mpr (BitVec.eq_of_getLsbD_eq fun j _ => ?_)
      rw [BitVec.getLsbD_and, BitVec.getLsbD_twoPow]
      by_cases hj : k = j
      · rw [← hj, hx, Bool.and_false]
        exact BitVec.getLsbD_zero.symm
      · rw [decide_eq_false hj, Bool.and_false, Bool.false_and]
        exact BitVec.getLsbD_zero.symm
  | true =>
      refine Bool.eq_false_iff.mpr fun hzero => ?_
      have hbit : (BitVec.twoPow ports k &&& x).getLsbD k = (0 : BitVec ports).getLsbD k :=
        congrArg (BitVec.getLsbD · k) (beq_iff_eq.mp hzero)
      rw [BitVec.getLsbD_and, BitVec.getLsbD_twoPow, hx, decide_eq_true hk, decide_eq_true rfl] at hbit
      exact Bool.noConfusion (hbit.trans BitVec.getLsbD_zero)

/-- A grant that waits for its acknowledge is held until it comes. -/
theorem held_iff (hc : c.arbBlock = true ∧ c.arbBlockAck = true) (h : a.OneHot) :
    a.held c req ack = (a.grantValidReg && !ack.getLsbD a.grantIndexReg.toNat) := by
  unfold held
  rw [hc.1, hc.2]
  unfold OneHot at h
  cases hv : a.grantValidReg with
  | false => rfl
  | true =>
      rw [hv, if_pos rfl] at h
      have hack := and_twoPow h.1 ack
      rw [← h.2] at hack
      rw [hack]
      rfl

/-- With fixed priority the grant that is made is the encoder's. -/
theorem edge_fixed (hc : c.arbRoundRobin = false) (hfree : a.held c req ack = false)
    (hreq : pencValid req = true) : a.edge c req ack = grantTo c req a.maskReg := by
  rw [edge, hfree, if_neg Bool.false_ne_true, hreq, if_pos rfl, hc, if_neg Bool.false_ne_true]

end Arbiter

/-- **The arbiter**, in every run and whatever its parameters: the grant is the bit of the granted index
    alone, or nothing; where it waits for the acknowledge, a grant stays until the granted port has its
    acknowledge; and at an edge at which it is not held the next grant is made exactly when a port
    requests, and to a port that does. -/
theorem arbiter_run {ports : Nat} (c : ArbiterConfig) (is : List (Arbiter.In ports)) (req ack : BitVec ports) :
    let a := run (Arbiter.clock c) (Arbiter.reset ports) is
    a.OneHot ∧
      (c.arbBlock = true ∧ c.arbBlockAck = true → a.grantValidReg = true →
        ack.getLsbD a.grantIndexReg.toNat = false → a.edge c req ack = a) ∧
      (a.held c req ack = false → (a.edge c req ack).grantValidReg = pencValid req ∧
        ((a.edge c req ack).grantValidReg = true →
          req.getLsbD (a.edge c req ack).grantIndexReg.toNat = true)) := by
  intro a
  have hone : a.OneHot := Arbiter.run_oneHot c is
  refine ⟨hone, fun hc hv hack => ?_, fun hfree => (Arbiter.edge_grants hfree).2⟩
  have hheld : a.held c req ack = true := by
    rw [Arbiter.held_iff hc hone, hv, hack]
    rfl
  rw [Arbiter.edge, hheld, if_pos rfl]

end Frac.Axis
