/-
  File:      Frac/Reassembly/Arbiter.lean
  Subject:   What the output block can do at an edge, said once, and the credit balance of a queue
             over both blocks.

  * `outEdge_cases` -- the branches of the output block with their guards;
  * `SelOne` -- at most one queue is selected (`selOne_outEdge`);
  * `outEdge_of_pop`, `outEdge_of_wait` -- the branch taken when a queue with credit is read;
  * `Sched.balance` -- the credits not yet deducted; `balance_cleared` -- clearing both counters
    keeps it; `deduct_outEdge` -- an edge deducts at most one.
-/
import Frac.Reassembly.Intake

namespace Frac.Reassembly

variable {n : Nat} {τ : Type}

/-! ## 1. The branches -/

section Branches

variable [FifoKind]

/-- **The output block, branch by branch.** -/
theorem outEdge_cases (s : Sched n τ) :
    (s.fifoSingle.tvalid = true ∧
      s.outEdge = ⟨fun _ => false, true, s.deducted, BitVec.ofNat 8 n⟩) ∨
    (s.fifoSingle.tvalid = false ∧
      ((∃ a, s.out.sel a = true ∧ s.hasCredit a = true ∧
        (((s.fifo a).tvalid = true ∧ s.headEnds a = true ∧ s.outEdge = s.finishRequest a) ∨
        ((s.fifo a).tvalid = true ∧ s.headEnds a = false ∧
          s.outEdge = ⟨only a, false, s.deducted, BitVec.ofNat 8 a.val⟩) ∨
        ((s.fifo a).tvalid = false ∧ s.outEdge = ⟨only a, false, s.deducted, s.out.number⟩))) ∨
      ((∀ k, (s.out.sel k && s.hasCredit k) = false) ∧
        ((∃ c, s.hasCredit c = true ∧ s.outEdge = ⟨only c, false, s.deducted, s.out.number⟩) ∨
        ((∀ k, s.hasCredit k = false) ∧
          s.outEdge = ⟨fun _ => false, false, s.deducted, s.out.number⟩))))) := by
  unfold Sched.outEdge
  cases hs : s.fifoSingle.tvalid with
  | true => exact Or.inl ⟨rfl, rfl⟩
  | false =>
      refine Or.inr ⟨rfl, ?_⟩
      cases hl : lastFin (fun k => s.out.sel k && s.hasCredit k) with
      | some a =>
          obtain ⟨h1, h2⟩ := Bool.and_eq_true_iff.mp (lastFin_some hl)
          refine Or.inl ⟨a, h1, h2, ?_⟩
          cases hv : (s.fifo a).tvalid with
          | false => exact Or.inr (Or.inr ⟨rfl, by simp [hv]⟩)
          | true =>
              cases he : s.headEnds a with
              | true => exact Or.inl ⟨rfl, rfl, by simp [hv, he]⟩
              | false => exact Or.inr (Or.inl ⟨rfl, rfl, by simp [hv, he]⟩)
      | none =>
          refine Or.inr ⟨lastFin_none hl, ?_⟩
          cases hf : firstFin s.hasCredit with
          | some c => exact Or.inl ⟨c, firstFin_some hf, rfl⟩
          | none => exact Or.inr ⟨firstFin_none hf, rfl⟩

omit [FifoKind] in
theorem nextFin_some {a k : Fin n} {p : Fin n → Bool} (h : nextFin a p = some k) : p k = true :=
  List.find?_some h

/-- What the end of a request leaves: the queue's deduction, and another selection or none. -/
theorem finishRequest_cases (s : Sched n τ) (a : Fin n) (hs : s.fifoSingle.tvalid = false) :
    (s.finishRequest a).deduct = Function.update s.deducted a (s.deducted a + 1) ∧
    (s.finishRequest a).number = BitVec.ofNat 8 a.val ∧ (s.finishRequest a).selSingle = false ∧
    ((s.finishRequest a).sel = Function.update s.out.sel a false ∨
      ∃ k, (s.fifo k).tvalid = true ∧
        (s.inp.queue k).credits > Function.update s.deducted a (s.deducted a + 1) k ∧
        (s.finishRequest a).sel = Function.update (Function.update s.out.sel a false) k true) := by
  unfold Sched.finishRequest
  dsimp only
  split
  · rename_i k hk
    obtain ⟨h1, h2⟩ := Bool.and_eq_true_iff.mp (nextFin_some hk)
    exact ⟨rfl, rfl, rfl, Or.inr ⟨k, h1, of_decide_eq_true h2, rfl⟩⟩
  · rw [hs]
    simp only [Bool.false_eq_true, if_false]
    split
    · rename_i h
      obtain ⟨h1, h2⟩ := Bool.and_eq_true_iff.mp h
      exact ⟨rfl, rfl, rfl, Or.inr ⟨a, h1, of_decide_eq_true h2, rfl⟩⟩
    · exact ⟨rfl, rfl, rfl, Or.inl rfl⟩

/-- The single-packet FIFO is selected only where it shows a beat. -/
theorem outEdge_selSingle {s : Sched n τ} (h : s.fifoSingle.tvalid = false) : s.outEdge.selSingle = false := by
  rcases outEdge_cases s with ⟨hs, -⟩ | ⟨hs, ⟨a, -, -, ⟨-, -, e⟩ | ⟨-, -, e⟩ | ⟨-, e⟩⟩ | ⟨-, ⟨c, -, e⟩ | ⟨-, e⟩⟩⟩
  · rw [h] at hs
    cases hs
  · rw [e]
    exact (finishRequest_cases s a hs).2.2.1
  all_goals rw [e]

end Branches

/-! ## 2. At most one queue is selected -/

def SelOne (o : OutRegs n) : Prop := ∀ i j, o.sel i = true → o.sel j = true → i = j

theorem selOne_only (k : Fin n) {o : OutRegs n} (h : o.sel = only k) : SelOne o := by
  intro i j hi hj
  rw [h] at hi hj
  exact (of_decide_eq_true hi).trans (of_decide_eq_true hj).symm

theorem selOne_none {o : OutRegs n} (h : o.sel = fun _ => false) : SelOne o := by
  intro i j hi
  rw [h] at hi
  cases hi

variable [FifoKind]

theorem selOne_outEdge {s : Sched n τ} (h : SelOne s.out) : SelOne s.outEdge := by
  rcases outEdge_cases s with ⟨-, e⟩ | ⟨hs, ⟨a, ha, -, ⟨-, -, e⟩ | ⟨-, -, e⟩ | ⟨-, e⟩⟩ |
    ⟨-, ⟨c, -, e⟩ | ⟨-, e⟩⟩⟩
  · exact selOne_none (by rw [e])
  · -- the selected queue was the finishing one alone, so none is left besides the new one
    have hclear : Function.update s.out.sel a false = fun _ => false := by
      funext j
      by_cases hj : j = a
      · rw [hj, Function.update_self]
      · rw [Function.update_of_ne hj]
        exact Bool.eq_false_iff.mpr fun hsel => hj (h j a hsel ha)
    rw [e]
    obtain ⟨-, -, -, hsel | ⟨k, -, -, hsel⟩⟩ := finishRequest_cases s a hs
    · exact selOne_none (by rw [hsel, hclear])
    · refine selOne_only k ?_
      rw [hsel, hclear]
      funext j
      by_cases hj : j = k
      · rw [hj, Function.update_self]
        exact (decide_eq_true rfl).symm
      · rw [Function.update_of_ne hj]
        exact (decide_eq_false hj).symm
  · exact selOne_only a (by rw [e])
  · exact selOne_only a (by rw [e])
  · exact selOne_only c (by rw [e])
  · exact selOne_none (by rw [e])

/-! ## 3. Credits -/

/-- The credits of a queue that are not yet deducted. -/
def Sched.balance (s : Sched n τ) (k : Fin n) : Nat :=
  (s.inp.queue k).credits.toNat - (s.out.deduct k).toNat

/-- Clearing credits and deduction together keeps the balance. -/
theorem balance_cleared (s : Sched n τ) (k : Fin n) :
    (s.cleared k).credits.toNat - (s.deducted k).toNat = s.balance k := by
  unfold Sched.cleared Sched.deducted Sched.balance
  dsimp only
  split
  · rename_i h
    rw [h]
    simp
  · rfl

theorem hasCredit_of_gt {s : Sched n τ} {k : Fin n}
    (h : (s.inp.queue k).credits > s.out.deduct k) :
    s.hasCredit k = true ∧ s.deducted k = s.out.deduct k := by
  have hne : (s.inp.queue k).credits ≠ s.out.deduct k := by
    intro e
    rw [e] at h
    exact Nat.lt_irrefl _ h
  have hd : s.deducted k = s.out.deduct k := if_neg hne
  exact ⟨by rw [Sched.hasCredit, hd]; exact decide_eq_true h, hd⟩

/-- The output block deducts at most one, and from a queue it sees credit in. -/
theorem deduct_outEdge (s : Sched n τ) (k : Fin n) :
    s.outEdge.deduct k = s.deducted k ∨
    (s.outEdge.deduct k).toNat = (s.deducted k).toNat + 1 := by
  rcases outEdge_cases s with ⟨-, e⟩ | ⟨hs, ⟨a, -, hc, ⟨-, -, e⟩ | ⟨-, -, e⟩ | ⟨-, e⟩⟩ |
    ⟨-, ⟨c, -, e⟩ | ⟨-, e⟩⟩⟩
  · exact Or.inl (by rw [e])
  · rw [e, (finishRequest_cases s a hs).1]
    by_cases hk : k = a
    · subst hk
      refine Or.inr ?_
      have hlt : (s.deducted k).toNat < (s.inp.queue k).credits.toNat := of_decide_eq_true hc
      have := (s.inp.queue k).credits.isLt
      rw [Function.update_self, BitVec.toNat_add]
      exact Nat.mod_eq_of_lt (show _ + 1 < 2 ^ 8 by omega)
    · exact Or.inl (Function.update_of_ne hk ..)
  · exact Or.inl (by rw [e])
  · exact Or.inl (by rw [e])
  · exact Or.inl (by rw [e])
  · exact Or.inl (by rw [e])

/-- **The branch taken when a queue with credit is read**: the queue goes on, or its request ends
    and is deducted. -/
theorem outEdge_of_pop {s : Sched n τ} {k : Fin n} (hone : SelOne s.out)
    (hs : s.fifoSingle.tvalid = false) (hready : s.popReady (.queue k) = true)
    (hv : (s.fifo k).tvalid = true) (hc : (s.inp.queue k).credits > s.out.deduct k) :
    (s.headEnds k = true ∧ (s.outEdge.deduct k).toNat = (s.out.deduct k).toNat + 1) ∨
    (s.headEnds k = false ∧ s.outEdge.sel k = true ∧ s.outEdge.number = BitVec.ofNat 8 k.val) := by
  obtain ⟨hcred, hded⟩ := hasCredit_of_gt hc
  have hsel : s.out.sel k = true := (Bool.and_eq_true_iff.mp hready).1
  rcases outEdge_cases s with ⟨h, -⟩ | ⟨-, ⟨a, ha, hca, hbr⟩ | ⟨hno, -⟩⟩
  · rw [hs] at h; cases h
  · have hak : a = k := hone a k ha hsel
    subst hak
    rcases hbr with ⟨-, he, e⟩ | ⟨-, he, e⟩ | ⟨h, -⟩
    · refine Or.inl ⟨he, ?_⟩
      have hlt : (s.out.deduct a).toNat < (s.inp.queue a).credits.toNat := hc
      have := (s.inp.queue a).credits.isLt
      rw [e, (finishRequest_cases s a hs).1, Function.update_self, hded, BitVec.toNat_add]
      exact Nat.mod_eq_of_lt (show _ + 1 < 2 ^ 8 by omega)
    · refine Or.inr ⟨he, ?_, by rw [e]⟩
      rw [e]
      exact decide_eq_true rfl
    · rw [hv] at h; cases h
  · have h := hno k
    rw [hsel, hcred] at h
    cases h

/-- A queue with credit that is read while it shows nothing stays selected. -/
theorem outEdge_of_wait {s : Sched n τ} {k : Fin n} (hone : SelOne s.out)
    (hs : s.fifoSingle.tvalid = false) (hready : s.popReady (.queue k) = true)
    (hv : (s.fifo k).tvalid = false) (hc : (s.inp.queue k).credits > s.out.deduct k) :
    s.outEdge = ⟨only k, false, s.deducted, s.out.number⟩ := by
  have hcred := (hasCredit_of_gt hc).1
  have hsel : s.out.sel k = true := (Bool.and_eq_true_iff.mp hready).1
  rcases outEdge_cases s with ⟨h, -⟩ | ⟨-, ⟨a, ha, -, hbr⟩ | ⟨hno, -⟩⟩
  · rw [hs] at h; cases h
  · have hak : a = k := hone a k ha hsel
    subst hak
    rcases hbr with ⟨h, -⟩ | ⟨h, -⟩ | ⟨-, e⟩
    · rw [hv] at h; cases h
    · rw [hv] at h; cases h
    · exact e
  · have h := hno k
    rw [hsel, hcred] at h
    cases h

end Frac.Reassembly
