/-
  File:      Frac/Reassembly/Credits.lean
  Subject:   The two counters a queue's requests are released on, `credits` and
             `output_deduct_credits`, against the requests that have ended in the queue.

  Two blocks keep one counter each, and each clears its own when it sees them equal. The input block
  counts when a beat that ends a request is placed on the queue's input; the output block counts
  when it looks at such a beat at the queue's head, not when the beat is read.

  * `Sched.ends` -- the requests that have ended in a queue and have not been read to their end;
  * `Counted` -- the counters differ by that number;
  * `Balances` -- at this edge a beat that ends a request enters, and leaves, as it is counted;
    `credits_match_queues` -- in every run of such edges the counters match the queues;
  * `preempted_end_not_deducted` -- a one-beat request suppresses the deduction, and they do not.
-/
import Frac.Reassembly.Whole

namespace Frac.Reassembly

open Clocked

variable {n : Nat} {τ : Type}

/-! ## 1. Ends -/

/-- The number of ends of requests among some beats. -/
def endsIn (xs : List (QBeat τ)) : Nat := xs.countP (·.requestEnd)

theorem endsIn_append (xs ys : List (QBeat τ)) : endsIn (xs ++ ys) = endsIn xs + endsIn ys :=
  List.countP_append

section Run

variable [FifoKind]

/-- The ends of requests placed on a queue's input and not yet read from its FIFO. -/
def Sched.ends (s : Sched n τ) (k : Fin n) : Nat := endsIn (s.contents (.queue k))

/-- **The counters match the queue.** -/
def Counted (s : Sched n τ) (k : Fin n) : Prop :=
  (s.inp.queue k).credits.toNat = (s.out.deduct k).toNat + s.ends k

/-! ## 2. The edges that count right -/

/-- The beat completes the request of queue `k`: it ends a packet, and the bytes of the request that
    fills the queue, or that it opens there, reach the declared size. -/
def Sched.completesAt (s : Sched n τ) (b : RxBeat τ) (k : Fin n) : Bool :=
  match s.route b with
  | .matchQueue j => decide (j = k) && (s.inp.queue k).completes b (s.inp.queue k).counterInst
  | .alloc j => decide (j = k) && { s.inp.queue k with counter := b.packetSize }.completes b 0
  | _ => false

/-- This edge completes the request of queue `k`. -/
def Sched.completing (s : Sched n τ) (rx : Option (RxBeat τ)) (k : Fin n) : Bool :=
  (s.accepted rx).any fun b => s.completesAt b k

/-- **The edge counts what it moves**: a strobed end is written, and its strobe does not stay up; the
    credit of a completed request does not overflow; and the end at the head of the selected queue is
    read if and only if the single-packet FIFO, which suppresses its deduction, is empty. -/
structure Balances (s : Sched n τ) (rx : Option (RxBeat τ)) : Prop where
  strobed : ∀ k, (s.inp.strobe (.queue k)).any (·.requestEnd) = true → (s.fifo k).tready = true ∧
    ∀ b ∈ s.accepted rx, (s.route b).port = some (.queue k)
  fits : ∀ k, s.completing rx k = true → (s.cleared k).credits ≠ BitVec.allOnes 8
  served : ∀ k, s.out.sel k = true → s.headEnds k = true →
    (s.out.number.toNat = k.val ↔ s.fifoSingle.tvalid = false)

instance (s : Sched n τ) (rx : Option (RxBeat τ)) : Decidable (Balances s rx) :=
  decidable_of_iff
    ((∀ k, (s.inp.strobe (.queue k)).any (·.requestEnd) = true → (s.fifo k).tready = true ∧
        ∀ b ∈ s.accepted rx, (s.route b).port = some (.queue k)) ∧
      (∀ k, s.completing rx k = true → (s.cleared k).credits ≠ BitVec.allOnes 8) ∧
      ∀ k, s.out.sel k = true → s.headEnds k = true →
        (s.out.number.toNat = k.val ↔ s.fifoSingle.tvalid = false))
    ⟨fun ⟨h1, h2, h3⟩ => ⟨h1, h2, h3⟩, fun h => ⟨h.strobed, h.fits, h.served⟩⟩

/-! ## 3. The input block -/

omit [FifoKind] in
theorem count_credits (q : QueueRegs τ) (b : RxBeat τ) (d : QBeat τ) (acc : BitVec 32) :
    (q.count b d acc).credits = if q.completes b acc then q.credits + 1 else q.credits := by
  rw [count_eq]
  split <;> rfl

/-- The registers of a queue an accepted beat goes to. -/
theorem take_queue_self {s : Sched n τ} {b : RxBeat τ} {k : Fin n}
    (h : (s.route b).port = some (.queue k)) :
    ∃ q d acc, (s.take b).queue k = QueueRegs.count q b d acc ∧
      q.credits = (s.cleared k).credits ∧ q.completes b acc = s.completesAt b k := by
  unfold Sched.take Sched.completesAt
  cases hr : s.route b with
  | matchSingle => rw [hr] at h; cases h
  | single => rw [hr] at h; cases h
  | reject => rw [hr] at h; cases h
  | matchQueue j =>
      rw [hr] at h
      cases h
      refine ⟨_, _, _, Function.update_self .., rfl, ?_⟩
      show _ = (decide (k = k) && QueueRegs.completes _ b _)
      rw [decide_eq_true rfl, Bool.true_and]
      rfl
  | alloc j =>
      rw [hr] at h
      cases h
      refine ⟨_, _, _, Function.update_self .., rfl, ?_⟩
      show _ = (decide (k = k) && QueueRegs.completes _ b _)
      rw [decide_eq_true rfl, Bool.true_and]
      rfl

/-- The registers of the other queues. -/
theorem take_queue_other {s : Sched n τ} {b : RxBeat τ} {k : Fin n}
    (h : (s.route b).port ≠ some (.queue k)) :
    (s.take b).queue k = s.cleared k ∧ s.completesAt b k = false := by
  unfold Sched.take Sched.completesAt
  cases hr : s.route b with
  | matchSingle => exact ⟨rfl, rfl⟩
  | single => exact ⟨rfl, rfl⟩
  | reject => exact ⟨rfl, rfl⟩
  | matchQueue j =>
      have hj : k ≠ j := fun e => h (by rw [hr, e]; rfl)
      exact ⟨Function.update_of_ne hj .., by simp [hj.symm]⟩
  | alloc j =>
      have hj : k ≠ j := fun e => h (by rw [hr, e]; rfl)
      exact ⟨Function.update_of_ne hj .., by simp [hj.symm]⟩

/-- The input block counts the request an edge completes. -/
theorem credits_inEdge (s : Sched n τ) (rx : Option (RxBeat τ)) (k : Fin n) :
    ((s.inEdge rx).queue k).credits =
      if s.completing rx k then (s.cleared k).credits + 1 else (s.cleared k).credits := by
  unfold Sched.completing
  cases ha : s.accepted rx with
  | none => rw [inEdge_idle ha]; rfl
  | some b =>
      rw [inEdge_take ha, Option.any_some]
      by_cases hp : (s.route b).port = some (.queue k)
      · obtain ⟨q, d, acc, hq, hcred, hcomp⟩ := take_queue_self hp
        rw [hq, count_credits, hcred, hcomp]
      · obtain ⟨hq, hcomp⟩ := take_queue_other hp
        rw [hq, hcomp]
        rfl

/-- The end on a queue's input after an edge is that of the request the edge completes. -/
theorem ends_strobe {s : Sched n τ} {rx : Option (RxBeat τ)} (h : Balances s rx) (k : Fin n) :
    endsIn ((s.inEdge rx).strobe (.queue k)).toList = (s.completing rx k).toNat := by
  unfold Sched.completing
  cases ha : s.accepted rx with
  | none =>
      rw [inEdge_idle ha, strobe_idle]
      rfl
  | some b =>
      rw [inEdge_take ha, Option.any_some]
      by_cases hp : (s.route b).port = some (.queue k)
      · obtain ⟨q, d, acc, hq, -, hcomp⟩ := take_queue_self hp
        rw [InRegs.strobe, hq, count_tvalid, if_pos rfl, Option.toList_some, endsIn,
          List.countP_singleton, count_requestEnd, hcomp]
        cases s.completesAt b k <;> rfl
      · -- a strobe that stays up ends no request
        have hstale : (s.inp.strobe (.queue k)).any (·.requestEnd) = false :=
          Bool.eq_false_iff.mpr fun he => hp ((h.strobed k he).2 b ha)
        rw [strobe_take_other hp, (take_queue_other hp).2]
        cases hs : s.inp.strobe (.queue k) with
        | none => rfl
        | some x =>
            rw [hs, Option.any_some] at hstale
            simp [endsIn, hstale]

/-- What is read and what stays in a queue's FIFO has the ends that were in the queue. -/
theorem ends_fifo {s : Sched n τ} {rx : Option (RxBeat τ)} (h : Balances s rx) (t : Bool)
    (k : Fin n) :
    endsIn ((s.fifo k).popped (s.popReady (.queue k))).toList + endsIn ((s.edge rx t).fifo k).items =
      s.ends k := by
  have hwritten : endsIn ((s.fifo k).written (s.inp.strobe (.queue k))).toList =
      endsIn (s.inp.strobe (.queue k)).toList := by
    cases hs : s.inp.strobe (.queue k) with
    | none => rw [Fifo.written_none]
    | some x =>
        cases he : x.requestEnd with
        | true =>
            have hroom := (h.strobed k (by rw [hs]; exact he)).1
            rw [Fifo.written_some hroom]
        | false =>
            have hzero : endsIn [x] = 0 := by simp [endsIn, he]
            unfold Fifo.written
            split
            · rfl
            · exact hzero.symm
  have hstep := congrArg endsIn
    (StreamFifo.edge_items (s.fifo k) (s.inp.strobe (.queue k)) (s.popReady (.queue k)))
  rw [endsIn_append, endsIn_append, hwritten] at hstep
  rw [edge_fifo, hstep, Sched.ends, Sched.contents, endsIn_append]
  rfl

/-! ## 4. The output block -/

theorem headEnds_pos {s : Sched n τ} {k : Fin n} (h : s.headEnds k = true) : 0 < s.ends k := by
  unfold Sched.headEnds at h
  cases hf : (s.fifo k).head? with
  | none => rw [hf] at h; cases h
  | some x =>
      rw [hf] at h
      have hx : x.requestEnd = true := h
      have hmem : x ∈ s.contents (.queue k) :=
        List.mem_append_left _ (List.mem_of_mem_head? (StreamFifo.head_of_head? hf))
      exact List.countP_pos_iff.mpr ⟨x, hmem, hx⟩

/-- A queue with an end at its head has credit, when the counters match. -/
theorem credit_of_headEnds {s : Sched n τ} {k : Fin n} (hc : Counted s k)
    (h : s.headEnds k = true) : (s.inp.queue k).credits > s.out.deduct k := by
  have hpos := headEnds_pos h
  have heq : (s.inp.queue k).credits.toNat = (s.out.deduct k).toNat + s.ends k := hc
  show (s.out.deduct k).toNat < (s.inp.queue k).credits.toNat
  omega

/-- **What the output block deducts**: one, from the selected queue when its head ends a request and
    the single-packet FIFO is empty. -/
theorem deduct_iff {s : Sched n τ} {k : Fin n} (hone : SelOne s.out) (hc : Counted s k) :
    (s.outEdge.deduct k).toNat = (s.deducted k).toNat +
      (!s.fifoSingle.tvalid && s.out.sel k && s.headEnds k).toNat := by
  rcases outEdge_cases s with ⟨hs, e⟩ | ⟨hs, ⟨a, ha, hcred, ⟨-, he, e⟩ | ⟨-, he, e⟩ | ⟨hv, e⟩⟩ |
    ⟨hno, hbr⟩⟩
  · rw [e, hs]
    rfl
  · rw [e, (finishRequest_cases s a hs).1]
    by_cases hk : k = a
    · subst hk
      have hlt : (s.deducted k).toNat < (s.inp.queue k).credits.toNat := of_decide_eq_true hcred
      have := (s.inp.queue k).credits.isLt
      rw [Function.update_self, BitVec.toNat_add, hs, ha, he]
      exact Nat.mod_eq_of_lt (show _ + 1 < 2 ^ 8 by omega)
    · have hsel : s.out.sel k = false := Bool.eq_false_iff.mpr fun h => hk (hone k a h ha)
      rw [Function.update_of_ne hk, hsel, Bool.and_false, Bool.false_and]
      rfl
  · -- the selected queue goes on: no other is selected, and its head ends nothing
    have hnone : (s.out.sel k && s.headEnds k) = false := by
      refine Bool.eq_false_iff.mpr fun h => ?_
      obtain ⟨h1, h2⟩ := Bool.and_eq_true_iff.mp h
      rw [hone k a h1 ha, he] at h2
      cases h2
    rw [e, Bool.and_assoc, hnone, Bool.and_false]
    rfl
  · have hnone : (s.out.sel k && s.headEnds k) = false := by
      refine Bool.eq_false_iff.mpr fun h => ?_
      obtain ⟨h1, h2⟩ := Bool.and_eq_true_iff.mp h
      rw [hone k a h1 ha, Sched.headEnds] at h2
      rw [StreamFifo.tvalid_eq] at hv
      rw [Option.not_isSome_iff_eq_none.mp (Bool.eq_false_iff.mp hv)] at h2
      cases h2
    rw [e, Bool.and_assoc, hnone, Bool.and_false]
    rfl
  · -- no selected queue has credit, so none has an end at its head
    have hnone : (s.out.sel k && s.headEnds k) = false := by
      refine Bool.eq_false_iff.mpr fun h => ?_
      obtain ⟨h1, h2⟩ := Bool.and_eq_true_iff.mp h
      have hk := hno k
      rw [h1, (hasCredit_of_gt (credit_of_headEnds hc h2)).1] at hk
      cases hk
    have hded : s.outEdge.deduct k = s.deducted k := by
      rcases hbr with ⟨c, -, e⟩ | ⟨-, e⟩ <;> rw [e]
    rw [hded, Bool.and_assoc, hnone, Bool.and_false]
    rfl

/-- **The end that is read is the end that is deducted.** -/
theorem ends_popped {s : Sched n τ} {rx : Option (RxBeat τ)} (h : Balances s rx) (k : Fin n) :
    endsIn ((s.fifo k).popped (s.popReady (.queue k))).toList =
      (!s.fifoSingle.tvalid && s.out.sel k && s.headEnds k).toNat := by
  have hpop : endsIn ((s.fifo k).popped (s.popReady (.queue k))).toList =
      (s.popReady (.queue k) && s.headEnds k).toNat := by
    unfold Sched.headEnds
    cases s.popReady (.queue k) with
    | false => rfl
    | true =>
        rw [StreamFifo.popped_true]
        cases (s.fifo k).head? with
        | none => rfl
        | some x =>
            show endsIn [x] = (true && x.requestEnd).toNat
            rw [endsIn, List.countP_singleton]
            cases x.requestEnd <;> rfl
  rw [hpop]
  congr 1
  cases hs : s.out.sel k with
  | false => simp [Sched.popReady, hs]
  | true =>
      cases he : s.headEnds k with
      | false => simp
      | true =>
          have hserved := h.served k hs he
          simp only [Sched.popReady, hs, Bool.true_and, Bool.and_true]
          cases hv : s.fifoSingle.tvalid with
          | false => exact decide_eq_true (hserved.mpr hv)
          | true => exact decide_eq_false fun e => by rw [hserved.mp e] at hv; cases hv

/-! ## 5. Whole runs -/

/-- Clearing both counters keeps their difference. -/
theorem counted_cleared {s : Sched n τ} {k : Fin n} (hc : Counted s k) :
    (s.cleared k).credits.toNat = (s.deducted k).toNat + s.ends k := by
  have heq : (s.inp.queue k).credits.toNat = (s.out.deduct k).toNat + s.ends k := hc
  rw [cleared_credits, Sched.deducted]
  split
  · rename_i h
    rw [h] at heq
    show 0 = 0 + s.ends k
    omega
  · exact heq

/-- **One edge keeps the counters matched.** -/
theorem counted_edge {s : Sched n τ} {rx : Option (RxBeat τ)} (h : Balances s rx) (t : Bool)
    (hone : SelOne s.out) {k : Fin n} (hc : Counted s k) : Counted (s.edge rx t) k := by
  have hclear := counted_cleared hc
  have hdeduct := deduct_iff hone hc
  have hfifo := ends_fifo h t k
  rw [ends_popped h] at hfifo
  have hends : (s.edge rx t).ends k =
      endsIn ((s.edge rx t).fifo k).items + (s.completing rx k).toNat := by
    rw [← ends_strobe h k, ← endsIn_append]
    rfl
  have hcred : ((s.inEdge rx).queue k).credits.toNat =
      (s.cleared k).credits.toNat + (s.completing rx k).toNat := by
    rw [credits_inEdge]
    cases hcomp : s.completing rx k with
    | false => rfl
    | true =>
        have hne : (s.cleared k).credits.toNat ≠ 255 := fun e =>
          h.fits k hcomp (BitVec.eq_of_toNat_eq e)
        have := (s.cleared k).credits.isLt
        rw [if_pos rfl, BitVec.toNat_add]
        exact Nat.mod_eq_of_lt (show _ + 1 < 2 ^ 8 by omega)
  show ((s.inEdge rx).queue k).credits.toNat = (s.outEdge.deduct k).toNat + (s.edge rx t).ends k
  omega

theorem counted_reset [Inhabited τ] (k : Fin n) : Counted (Sched.reset n τ) k := rfl

/-- **The counters match the queues**: in every run of edges that count what they move, over any
    interleaving of connections, sizes, gaps and stalls and any number of requests outstanding,
    `credits` exceeds `output_deduct_credits` by the number of ends placed on the queue's input and
    not yet read, for every queue. -/
theorem credits_match_queues [Inhabited τ] {s : Sched n τ}
    (hr : Reachable Sched.clock (fun s i => i.rst = true ∨ Balances s i.rx) (Sched.reset n τ) s)
    (k : Fin n) : Counted s k := by
  have hinit : SelOne (Sched.reset n τ).out ∧ ∀ k, Counted (Sched.reset n τ) k :=
    ⟨selOne_none rfl, counted_reset⟩
  refine (hr.invariant (P := fun s => SelOne s.out ∧ ∀ k, Counted s k) hinit ?_).2 k
  intro s i ⟨hone, hc⟩ hok
  rw [Sched.clock]
  cases hrst : i.rst with
  | true => exact hinit
  | false =>
      have hb : Balances s i.rx := hok.resolve_left (by simp [hrst])
      exact ⟨selOne_outEdge hone, fun k => counted_edge hb i.txTready hone (hc k)⟩

end Run

section Source

attribute [local instance] axisDataFifos

/-- A request of three lines in one packet and, once it is out, a one-beat request of another
    connection. -/
def lateSingle : List (SchedIn Nat) :=
  burst 1 3 10 ++ List.replicate 10 (rxEdge none) ++ burst 2 1 20 ++ List.replicate 8 (rxEdge none)

theorem credits_match_late_single : Counted (run Sched.clock (Sched.reset 2 Nat) lateSingle) 0 :=
  credits_match_queues (Reachable.of_run lateSingle (by decide +kernel)) 0

/-- A request of four lines in one packet, two edges later a one-beat request of another connection,
    and five edges later one of a third. -/
def requestThenSingles : List (SchedIn Nat) :=
  burst 1 4 10 ++ rxEdge none :: burst 2 1 20 ++ List.replicate 4 (rxEdge none) ++ burst 3 1 30 ++
    List.replicate 8 (rxEdge none)

/-- **A one-beat request suppresses the deduction**: it reaches the head of its FIFO when the end of
    the other request is read, and a credit stays for which there is no request. -/
theorem preempted_end_not_deducted :
    ¬ ∀ s : Sched 2 Nat, Reachable Sched.clock (fun _ _ => True) (Sched.reset 2 Nat) s →
      ∀ k, Counted s k := by
  intro h
  have hc := h (run Sched.clock (Sched.reset 2 Nat) requestThenSingles)
    (Reachable.of_run requestThenSingles (Meets.of_forall (fun _ _ => trivial) _ _)) 0
  exact absurd hc (by unfold Counted; decide +kernel)

end Source

end Frac.Reassembly
