/-
  File:      Frac/Slots/Words.lean
  Subject:   The sixteen words of a line on their way through the cores of a slot module: issued one by
             one, and packed again one by one as the results come out.

  The cores cannot be reset, so a module counts the results that it is owed and drops every other one;
  this is what makes the packing independent of what the cores do.

  * `Filling` -- the words that are issued, packed and owed agree;
  * `filling_goes`, `filling_ends` -- **one edge of it**, whatever is issued and whatever comes out.
-/
import Frac.Lib.ByteMem

namespace Frac.Slots

open Bits

/-- Word `i` of a line. -/
def word (line : BitVec 512) (i : BitVec 4) : BitVec 32 := line.extractLsb' (32 * i.toNat) 32

/-- A line with word `i` replaced. -/
def setWord (line : BitVec 512) (i : BitVec 4) (x : BitVec 32) : BitVec 512 :=
  ofBits 512 fun t => if t / 32 = i.toNat then x.getLsbD (t % 32) else line.getLsbD t

/-- The length of a request without its header line. -/
theorem less_header {d : Nat} {reqBytes : BitVec 16} (h : reqBytes.toNat = 64 * (d + 1)) :
    (reqBytes - 64).toNat = 64 * d := by
  have hle : (64 : BitVec 16).toNat ≤ reqBytes.toNat := by
    rw [h]
    show 64 ≤ _
    omega
  rw [BitVec.toNat_sub_of_le hle, h]
  show 64 * (d + 1) - 64 = _
  omega

/-- Of the words that are issued, `pack` are packed and `owed` results are owed. -/
def Filling (issuing : Bool) (idx pack : BitVec 4) (owed : BitVec 5) : Prop :=
  owed.toNat + pack.toNat = if issuing then idx.toNat else 16

/-- The words to be issued and the results to be packed. -/
def fillRank (issuing : Bool) (idx pack : BitVec 4) : Nat :=
  (if issuing then 16 - idx.toNat else 0) + (16 - pack.toNat)

/-- **What an edge does to the words**: `fire` issues one, `res` packs one. -/
structure FillStep (fire res : Bool) (issuing : Bool) (idx pack : BitVec 4) (owed : BitVec 5)
    (issuing' : Bool) (idx' pack' : BitVec 4) (owed' : BitVec 5) : Prop where
  issuing : issuing' = (!(fire && decide (idx = 15)) && issuing)
  idx : idx' = if fire then idx + 1 else idx
  pack : pack' = if res then pack + 1 else pack
  owed : owed' = if fire && !res then owed + 1 else if !fire && res then owed - 1 else owed

theorem fifteen (x : BitVec 4) : decide (x = 15) = decide (x.toNat = 15) :=
  decide_eq_decide.mpr ⟨fun e => by rw [e]; rfl, fun e => BitVec.eq_of_toNat_eq e⟩

/-- A result is only taken when one is owed. -/
theorem owed_pos {valid : Bool} {owed : BitVec 5} (h : (valid && owed != 0) = true) :
    0 < owed.toNat := by
  refine Nat.pos_of_ne_zero fun hzero => ?_
  rw [show owed = 0 from BitVec.eq_of_toNat_eq hzero] at h
  exact Bool.noConfusion ((Bool.and_false _).symm.trans h)

section Step

variable {fire res issuing issuing' : Bool} {idx pack idx' pack' : BitVec 4} {owed owed' : BitVec 5}

/-- The counters, as numbers. -/
theorem filling_counts (h : FillStep fire res issuing idx pack owed issuing' idx' pack' owed')
    (ho : owed.toNat ≤ 16) (hres : res = true → 0 < owed.toNat) :
    idx'.toNat = (idx.toNat + fire.toNat) % 16 ∧ pack'.toNat = (pack.toNat + res.toNat) % 16 ∧
      owed'.toNat + res.toNat = owed.toNat + fire.toNat := by
  refine ⟨?_, ?_, ?_⟩
  · rw [h.idx]
    cases fire with
    | false => exact (Nat.mod_eq_of_lt idx.isLt).symm
    | true => rfl
  · rw [h.pack]
    cases res with
    | false => exact (Nat.mod_eq_of_lt pack.isLt).symm
    | true => rfl
  · rw [h.owed]
    cases res with
    | false =>
        cases fire with
        | false => rfl
        | true => exact toNat_succ (x := owed) (by omega)
    | true =>
        have hpos := hres rfl
        cases fire with
        | false =>
            have hpred := toNat_pred hpos
            show (owed - 1).toNat + 1 = owed.toNat
            omega
        | true => rfl

theorem filling_owed (hf : Filling issuing idx pack owed) : owed.toNat ≤ 16 := by
  have hx := idx.isLt
  unfold Filling at hf
  split at hf <;> omega

/-- Once all words are issued, a result is owed. -/
theorem filling_owes (hf : Filling false idx pack owed) : owed ≠ 0 := by
  intro e
  have hsum : owed.toNat + pack.toNat = 16 := hf
  have hlt := pack.isLt
  rw [e] at hsum
  have hz : (0 : BitVec 5).toNat = 0 := rfl
  omega

/-- A result that is not the last. -/
theorem packs_below (hmore : (res && decide (pack = 15)) = false) : pack.toNat + res.toNat < 16 := by
  rw [fifteen] at hmore
  cases res with
  | false => exact pack.isLt
  | true =>
      have hne := of_decide_eq_false hmore
      have hlt := pack.isLt
      show pack.toNat + 1 < 16
      omega

/-- **The line is not complete yet.** -/
theorem filling_goes (h : FillStep fire res issuing idx pack owed issuing' idx' pack' owed')
    (hf : Filling issuing idx pack owed) (hfire : fire = true → issuing = true)
    (hres : res = true → 0 < owed.toNat) (hmore : (res && decide (pack = 15)) = false) :
    Filling issuing' idx' pack' owed' ∧
      fillRank issuing' idx' pack' + fire.toNat + res.toNat = fillRank issuing idx pack := by
  have hx := idx.isLt
  obtain ⟨h1, h2, h3⟩ := filling_counts h (filling_owed hf) hres
  have hpack := packs_below hmore
  rw [Nat.mod_eq_of_lt (by omega)] at h2
  have hi := h.issuing
  unfold Filling fillRank at *
  cases fire with
  | false =>
      rw [Bool.false_and, Bool.not_false, Bool.true_and] at hi
      rw [show false.toNat = 0 from rfl, Nat.add_zero] at h1 h3
      rw [Nat.mod_eq_of_lt hx] at h1
      rw [hi]
      cases issuing with
      | false =>
          simp only [Bool.false_eq_true, if_false, Bool.toNat_false] at hf ⊢
          omega
      | true =>
          simp only [if_true, Bool.toNat_false] at hf ⊢
          omega
  | true =>
      obtain rfl := hfire rfl
      rw [fifteen] at hi
      rw [show true.toNat = 1 from rfl] at h1 h3 ⊢
      by_cases hend : idx.toNat = 15
      · rw [decide_eq_true hend] at hi
        rw [show issuing' = false from hi]
        simp only [if_true, Bool.false_eq_true, if_false] at hf ⊢
        omega
      · rw [decide_eq_false hend] at hi
        rw [show issuing' = true from hi]
        rw [Nat.mod_eq_of_lt (by omega)] at h1
        simp only [if_true] at hf ⊢
        omega

/-- **The last result is packed**: nothing is owed. -/
theorem filling_ends (h : FillStep fire res issuing idx pack owed issuing' idx' pack' owed')
    (hf : Filling issuing idx pack owed) (hfire : fire = true → issuing = true)
    (hres : res = true → 0 < owed.toNat) (hend : (res && decide (pack = 15)) = true) :
    issuing = false ∧ issuing' = false ∧ pack' = 0 ∧ owed' = 0 := by
  have hx := idx.isLt
  obtain ⟨h1, h2, h3⟩ := filling_counts h (filling_owed hf) hres
  rw [fifteen, Bool.and_eq_true, decide_eq_true_eq] at hend
  obtain ⟨rfl, h15⟩ := hend
  have hpos := hres rfl
  have hone : true.toNat = 1 := rfl
  -- with a result owed, all sixteen words are issued
  have hissued : issuing = false := by
    cases issuing with
    | false => rfl
    | true =>
        have hsum : owed.toNat + pack.toNat = idx.toNat := hf
        omega
  subst hissued
  have hidle : fire = false := by
    cases fire with
    | false => rfl
    | true => exact (hfire rfl).symm
  subst hidle
  have hzero : false.toNat = 0 := rfl
  have hsum : owed.toNat + pack.toNat = 16 := hf
  refine ⟨rfl, by rw [h.issuing, Bool.and_false], BitVec.eq_of_toNat_eq ?_, BitVec.eq_of_toNat_eq ?_⟩
  · show pack'.toNat = 0
    omega
  · show owed'.toNat = 0
    omega

end Step

end Frac.Slots
