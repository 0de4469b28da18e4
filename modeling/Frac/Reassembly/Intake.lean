/-
  File:      Frac/Reassembly/Intake.lean
  Subject:   What the input block does with an accepted beat, said once: the queue registers after
             counting it, the strobe it raises and the ones it leaves alone; and the rule for what
             holds of every beat the scheduler keeps.

  * `count_eq` -- counting a beat by whether it completes its request;
  * `route_cases` -- the branch taken, with the guards that lead there;
  * `strobe_take_self`, `strobe_take_other` -- the strobe an accepted beat raises, and the others;
  * `all_edge` -- **what holds of a beat when its strobe is raised holds of it until it leaves**.
-/
import Frac.Reassembly.Scheduler

namespace Frac.Reassembly

variable {n : Nat} {τ : Type}

/-! ## 1. Counting -/

/-- The beat completes its request: it ends a packet, and the bytes counted reach the size. -/
def QueueRegs.completes (q : QueueRegs τ) (b : RxBeat τ) (acc : BitVec 32) : Bool :=
  b.tlast && decide (acc + b.length.setWidth 32 ≥ q.counter)

/-- The bytes of the packets that have ended, this beat's included. -/
def countedBytes (b : RxBeat τ) (acc : BitVec 32) : BitVec 32 :=
  if b.tlast then acc + b.length.setWidth 32 else acc

/-- The byte count, where it does not overflow. -/
theorem countedBytes_toNat {b : RxBeat τ} {acc : BitVec 32}
    (h : acc.toNat + (if b.tlast then b.length.toNat else 0) < 2 ^ 32) :
    (countedBytes b acc).toNat = acc.toNat + if b.tlast then b.length.toNat else 0 := by
  have hlen := b.length.isLt
  unfold countedBytes
  cases ht : b.tlast with
  | false => rfl
  | true =>
      rw [ht, if_pos rfl] at h
      rw [if_pos rfl, if_pos rfl, BitVec.toNat_add, BitVec.toNat_setWidth]
      omega

theorem count_eq (q : QueueRegs τ) (b : RxBeat τ) (d : QBeat τ) (acc : BitVec 32) :
    q.count b d acc =
      if q.completes b acc then
        { tdata := { d with requestEnd := true }
          tvalid := true
          credits := q.credits + 1
          qmeta := QMeta.free
          counter := 0
          counterInst := 0 }
      else
        { q with
          tvalid := true
          counterInst := countedBytes b acc
          tdata := { d with requestEnd := false, tlast := false } } := by
  unfold QueueRegs.count QueueRegs.completes countedBytes
  cases b.tlast with
  | false => rfl
  | true =>
      by_cases h : acc + b.length.setWidth 32 ≥ q.counter
      · simp [h]
      · simp [h]

theorem count_tvalid (q : QueueRegs τ) (b : RxBeat τ) (d : QBeat τ) (acc : BitVec 32) :
    (q.count b d acc).tvalid = true := by
  rw [count_eq]
  split <;> rfl

theorem count_requestEnd (q : QueueRegs τ) (b : RxBeat τ) (d : QBeat τ) (acc : BitVec 32) :
    (q.count b d acc).tdata.requestEnd = q.completes b acc := by
  rw [count_eq]
  split
  · rename_i h; exact h.symm
  · rename_i h; exact (Bool.eq_false_iff.mpr h).symm

/-! ## 2. The branch taken -/

variable [FifoKind]

/-- **The branch an accepted beat takes, with its guards.** -/
theorem route_cases (s : Sched n τ) (b : RxBeat τ) :
    (s.route b = .matchSingle ∧ b.connid = s.inp.metaSingle.connid ∧ s.fifoSingle.tready = true) ∨
    (¬ (b.connid = s.inp.metaSingle.connid ∧ s.fifoSingle.tready = true) ∧
      ((∃ k, s.route b = .matchQueue k ∧ s.matchesQueue b k = true) ∨
      ((∀ k, s.matchesQueue b k = false) ∧
        ((s.route b = .single ∧ s.fitsSingle b = true) ∨
        (s.fitsSingle b = false ∧
          ((∃ k, s.route b = .alloc k ∧ s.canAlloc b k = true) ∨
          (s.route b = .reject ∧ ∀ k, s.canAlloc b k = false))))))) := by
  unfold Sched.route
  by_cases h1 : b.connid = s.inp.metaSingle.connid ∧ s.fifoSingle.tready = true
  · exact Or.inl ⟨by simp [h1], h1⟩
  refine Or.inr ⟨h1, ?_⟩
  have h1' : (decide (b.connid = s.inp.metaSingle.connid) && s.fifoSingle.tready) = false := by
    simpa using h1
  rw [h1']
  cases hm : firstFin (s.matchesQueue b) with
  | some k => exact Or.inl ⟨k, rfl, firstFin_some hm⟩
  | none =>
      refine Or.inr ⟨firstFin_none hm, ?_⟩
      cases hf : s.fitsSingle b with
      | true => exact Or.inl ⟨rfl, rfl⟩
      | false =>
          refine Or.inr ⟨rfl, ?_⟩
          cases ha : firstFin (s.canAlloc b) with
          | some k => exact Or.inl ⟨k, rfl, firstFin_some ha⟩
          | none => exact Or.inr ⟨rfl, firstFin_none ha⟩

/-! ## 3. The strobe an accepted beat raises -/

/-- The part of a beat no block rewrites: its connection, its 64 bytes, its tag. -/
structure Line (τ : Type) where
  connid : BitVec 16
  payload : BitVec 512
  tag : τ
  deriving DecidableEq

def RxBeat.line (b : RxBeat τ) : Line τ := ⟨b.connid, b.payload, b.tag⟩
def QBeat.line (x : QBeat τ) : Line τ := ⟨x.connid, x.payload, x.tag⟩

/-- The FIFO a branch writes to. -/
def Route.port : Route n → Option (Port n)
  | .matchSingle | .single => some .single
  | .matchQueue k | .alloc k => some (.queue k)
  | .reject => none

omit [FifoKind] in
theorem count_line (q : QueueRegs τ) (b : RxBeat τ) (d : QBeat τ) (acc : BitVec 32) :
    (q.count b d acc).tdata.line = d.line := by
  rw [count_eq]
  split <;> rfl

/-- The FIFO the beat goes to is offered that beat. -/
theorem strobe_take_self {s : Sched n τ} {b : RxBeat τ} {p : Port n}
    (h : (s.route b).port = some p) : ∃ x, (s.take b).strobe p = some x ∧ x.line = b.line := by
  unfold Sched.take
  cases hr : s.route b with
  | matchSingle => rw [hr] at h; cases h; exact ⟨_, rfl, rfl⟩
  | single => rw [hr] at h; cases h; exact ⟨_, rfl, rfl⟩
  | reject => rw [hr] at h; cases h
  | matchQueue k =>
      rw [hr] at h
      cases h
      refine ⟨((s.cleared k).extend b).tdata, ?_, count_line ..⟩
      simp [InRegs.strobe, QueueRegs.extend, count_tvalid]
  | alloc k =>
      rw [hr] at h
      cases h
      refine ⟨((s.cleared k).allocate b).tdata, ?_, count_line ..⟩
      simp [InRegs.strobe, QueueRegs.allocate, count_tvalid]

/-- Every other strobe is as it was. -/
theorem strobe_take_other {s : Sched n τ} {b : RxBeat τ} {p : Port n}
    (h : (s.route b).port ≠ some p) : (s.take b).strobe p = s.inp.strobe p := by
  have hclear : ∀ k, (s.cleared k).tvalid = (s.inp.queue k).tvalid ∧
      (s.cleared k).tdata = (s.inp.queue k).tdata := fun k => ⟨rfl, rfl⟩
  unfold Sched.take
  cases hr : s.route b with
  | matchSingle => rw [hr] at h; cases p <;> first | rfl | exact absurd rfl h
  | single => rw [hr] at h; cases p <;> first | rfl | exact absurd rfl h
  | reject => cases p <;> rfl
  | matchQueue k =>
      rw [hr] at h
      cases p with
      | single => rfl
      | queue j =>
          have hj : j ≠ k := fun e => h (by rw [e]; rfl)
          simp [InRegs.strobe, Function.update_of_ne hj, hclear]
  | alloc k =>
      rw [hr] at h
      cases p with
      | single => rfl
      | queue j =>
          have hj : j ≠ k := fun e => h (by rw [e]; rfl)
          simp [InRegs.strobe, Function.update_of_ne hj, hclear]

omit [FifoKind] in
/-- A port whose `tvalid` is low offers nothing. -/
theorem strobe_queue_none {r : InRegs n τ} {k : Fin n} (h : (r.queue k).tvalid = false) :
    r.strobe (.queue k) = none := by
  rw [InRegs.strobe, h]
  rfl

omit [FifoKind] in
theorem strobe_single_none {r : InRegs n τ} (h : r.tvalidSingle = false) :
    r.strobe .single = none := by
  rw [InRegs.strobe, h]
  rfl

theorem strobe_idle (s : Sched n τ) (p : Port n) : s.idle.strobe p = none := by
  cases p <;> rfl

/-- `input_META_single`, all ones out of reset, stays so. -/
theorem take_metaSingle {s : Sched n τ} (hm : s.inp.metaSingle = QMeta.free) (b : RxBeat τ) :
    (s.take b).metaSingle = QMeta.free := by
  unfold Sched.take
  cases s.route b with
  | matchSingle =>
      show (if b.tlast then QMeta.free else s.inp.metaSingle) = QMeta.free
      rw [hm, ite_self]
  | matchQueue k => exact hm
  | single => rfl
  | alloc k => exact hm
  | reject => exact hm

theorem take_rxTready {s : Sched n τ} {b : RxBeat τ} {p : Port n} (h : (s.route b).port = some p) :
    (s.take b).rxTready = true := by
  unfold Sched.take
  cases hr : s.route b with
  | reject => rw [hr] at h; cases h
  | matchSingle => rfl
  | matchQueue k => rfl
  | single => rfl
  | alloc k => rfl

theorem inEdge_idle {s : Sched n τ} {rx : Option (RxBeat τ)} (h : s.accepted rx = none) :
    s.inEdge rx = s.idle := by
  rw [Sched.inEdge, h]

theorem inEdge_take {s : Sched n τ} {rx : Option (RxBeat τ)} {b : RxBeat τ}
    (h : s.accepted rx = some b) : s.inEdge rx = s.take b := by
  rw [Sched.inEdge, h]

/-! ## 4. All beats -/

/-- `G` holds of every beat the scheduler keeps: strobed, queued, under way or about to leave. -/
structure Sched.All (s : Sched n τ) (G : QBeat τ → Prop) : Prop where
  strobe : ∀ p x, s.inp.strobe p = some x → G x
  fifo : ∀ p, ∀ x ∈ (s.fifoAt p).items, G x
  pipe : ∀ x ∈ s.pipe.items, G x
  out : ∀ x ∈ s.fifoOut.items, G x

theorem all_reset [Inhabited τ] (G : QBeat τ → Prop) : (Sched.reset n τ).All G where
  strobe p x h := by cases p <;> cases h
  fifo p x h := by cases p <;> cases h
  pipe x h := by rw [show (Sched.reset n τ).pipe.items = [] from Delay.empty_items] at h; cases h
  out x h := by cases h

/-- **What holds of a beat when its strobe is raised holds of it until it leaves.** -/
theorem all_edge {s : Sched n τ} {G : QBeat τ → Prop} (hG : s.All G) {rx : Option (RxBeat τ)}
    (hin : ∀ p x, (s.inEdge rx).strobe p = some x → G x) (t : Bool) : (s.edge rx t).All G where
  strobe := hin
  fifo p x hx := by
    rw [fifoAt_edge] at hx
    rcases StreamFifo.mem_edge hx with h | h
    · exact hG.fifo p x h
    · exact hG.strobe p x h
  pipe x hx := by
    rcases Delay.mem_shift hx with h | h
    · exact hG.pipe x h
    · obtain ⟨p, -, hp⟩ := popped_of_forwarded h
      exact hG.fifo p x (List.mem_of_mem_head? (StreamFifo.head_of_head? hp))
  out x hx := by
    rcases StreamFifo.mem_edge hx with h | h
    · exact hG.out x h
    · exact hG.pipe x (Delay.mem_of_last h)

end Frac.Reassembly
