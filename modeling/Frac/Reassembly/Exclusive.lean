/-
  File:      Frac/Reassembly/Exclusive.lean
  Subject:   One queue for one session, whatever beats arrive. A queue is free when its `input_META` is
             all ones, and a beat is matched only to a queue whose FIFO has room.

  * `Sched.Exclusive` -- no two allocated queues have one session, and what is strobed into an
    allocated queue is of its session;
  * `Sched.Fair` -- the beat does not find its session's FIFO full: then a header would open a second
    queue, and a beat of session 0xffff would be matched to a free one;
  * `session_owns_one_queue` -- **in a run of such beats every session owns one queue at most**;
  * `full_queue_opened_twice` -- a request that fills its queue, and a line with bit 480 set behind it.
-/
import Frac.Reassembly.Ownership
import Frac.Lib.Clocked

namespace Frac.Reassembly

open Clocked

variable {n : Nat} {τ : Type}

section Run

variable [FifoKind]

/-! ## 1. Owners -/

/-- `input_META[k]` is not all ones. -/
def Sched.allocated (s : Sched n τ) (k : Fin n) : Prop := (s.inp.queue k).qmeta ≠ QMeta.free

/-- The session of `input_META[k]`. -/
def Sched.owner (s : Sched n τ) (k : Fin n) : BitVec 16 := (s.inp.queue k).qmeta.connid

instance (s : Sched n τ) (k : Fin n) : Decidable (s.allocated k) := inferInstanceAs (Decidable (_ ≠ _))

/-- **A session owns one queue, and only its own beats enter it.** -/
structure Sched.Exclusive (s : Sched n τ) : Prop where
  one : ∀ j k, s.allocated j → s.allocated k → s.owner j = s.owner k → j = k
  written : ∀ k x, s.inp.strobe (.queue k) = some x → s.allocated k → x.connid = s.owner k

/-- **Where a beat goes**: a queue it is matched to is allocated, to its session; a queue is opened for
    a session that has none. -/
structure Sched.Placed (s : Sched n τ) (b : RxBeat τ) : Prop where
  matched : ∀ k, s.route b = .matchQueue k → s.allocated k ∧ s.owner k = b.connid
  opened : ∀ k, s.route b = .alloc k → ∀ j, s.allocated j → s.owner j ≠ b.connid

/-- **The beat finds room where its session is**: in the single-packet FIFO, if its session is 0xffff;
    in its session's queue, if bit 480 is set. -/
def Sched.Fair (s : Sched n τ) (b : RxBeat τ) : Prop :=
  (b.connid = BitVec.allOnes 16 → s.fifoSingle.tready = true) ∧
    (b.isHeader = true → ∀ k, s.allocated k → s.owner k = b.connid → (s.fifo k).tready = true)

instance (s : Sched n τ) (b : RxBeat τ) : Decidable (s.Fair b) := inferInstanceAs (Decidable (_ ∧ _))

/-- The beat accepted at the edge, if there is one, is fair. -/
def Sched.FairEdge (s : Sched n τ) (i : SchedIn τ) : Prop := ∀ b, s.accepted i.rx = some b → s.Fair b

instance (s : Sched n τ) (i : SchedIn τ) : Decidable (s.FairEdge i) :=
  decidable_of_iff ((s.accepted i.rx).all (fun b => decide (s.Fair b)) = true) (by
    unfold Sched.FairEdge
    cases s.accepted i.rx <;> simp)

section Route

variable {s : Sched n τ} {b : RxBeat τ} {k : Fin n}

theorem route_matched (h : s.route b = .matchQueue k) :
    s.matchesQueue b k = true ∧ ¬ (b.connid = s.inp.metaSingle.connid ∧ s.fifoSingle.tready = true) := by
  rcases route_cases s b with ⟨hr, -⟩ | ⟨hno, ⟨j, hr, hj⟩ | ⟨-, ⟨hr, -⟩ | ⟨-, ⟨j, hr, -⟩ | ⟨hr, -⟩⟩⟩⟩ <;>
    rw [h] at hr <;> cases hr
  exact ⟨hj, hno⟩

theorem route_opened (h : s.route b = .alloc k) :
    s.canAlloc b k = true ∧ ∀ j, s.matchesQueue b j = false := by
  rcases route_cases s b with ⟨hr, -⟩ | ⟨-, ⟨j, hr, -⟩ | ⟨hno, ⟨hr, -⟩ | ⟨-, ⟨j, hr, hj⟩ | ⟨hr, -⟩⟩⟩⟩ <;>
    rw [h] at hr <;> cases hr
  exact ⟨hj, hno⟩

/-- A beat that finds room where its session is goes there. -/
theorem placed_of_fair (hm : s.inp.metaSingle = QMeta.free) (hf : s.Fair b) : s.Placed b := by
  refine ⟨fun k hr => ?_, fun k hr j hj howner => ?_⟩
  · -- a free queue has session 0xffff, which goes to the single-packet FIFO
    obtain ⟨hk, hno⟩ := route_matched hr
    have howner : b.connid = s.owner k := of_decide_eq_true (Bool.and_eq_true_iff.mp hk).1
    refine ⟨fun hfree => hno ?_, howner.symm⟩
    have hall : b.connid = BitVec.allOnes 16 := by rw [howner, Sched.owner, hfree, free_connid]
    exact ⟨by rw [hm, hall, free_connid], hf.1 hall⟩
  · -- a queue of the session would have had room
    obtain ⟨hk, hno⟩ := route_opened hr
    have hroom := hf.2 (Bool.and_eq_true_iff.mp hk).1 j hj howner
    have hmatch : s.matchesQueue b j = true := by
      rw [Sched.matchesQueue, hroom, Bool.and_true]
      exact decide_eq_true howner.symm
    rw [hno j] at hmatch
    cases hmatch

end Route

/-! ## 2. One edge -/

/-- `input_META` after an accepted beat: as it was, or freed, or just opened. -/
theorem take_qmeta (s : Sched n τ) (b : RxBeat τ) (j : Fin n) :
    ((s.take b).queue j).qmeta = (s.inp.queue j).qmeta ∨ ((s.take b).queue j).qmeta = QMeta.free ∨
      (s.route b = .alloc j ∧ ((s.take b).queue j).qmeta = ⟨b.dstPort, b.workload, b.connid⟩) := by
  have hbooks : ((s.take b).queue j).qmeta = ((s.take b).books j).qmeta := rfl
  rw [hbooks]
  cases hr : s.route b with
  | matchSingle => rw [Sched.take, hr]; exact Or.inl rfl
  | single => rw [books_take_single hr]; exact Or.inl rfl
  | reject => rw [Sched.take, hr]; exact Or.inl rfl
  | matchQueue k =>
      rw [books_take_match hr]
      by_cases hj : j = k
      · subst hj
        rw [Function.update_self]
        split
        · exact Or.inr (Or.inl rfl)
        · exact Or.inl rfl
      · rw [Function.update_of_ne hj]
        exact Or.inl rfl
  | alloc k =>
      rw [books_take_alloc hr]
      by_cases hj : j = k
      · subst hj
        rw [Function.update_self]
        split
        · exact Or.inr (Or.inl rfl)
        · exact Or.inr (Or.inr ⟨rfl, rfl⟩)
      · rw [Function.update_of_ne hj]
        exact Or.inl rfl

/-- What every edge keeps. -/
structure Sched.ExclusiveInv (s : Sched n τ) : Prop extends s.Exclusive where
  metaSingle : s.inp.metaSingle = QMeta.free

theorem exclusive_reset [Inhabited τ] : (Sched.reset n τ).ExclusiveInv where
  one _ _ hj := absurd rfl hj
  written _ _ _ hk := absurd rfl hk
  metaSingle := rfl

/-- A queue allocated after an accepted beat was so before, to the same session, or is opened by it. -/
theorem take_allocated {s : Sched n τ} {b : RxBeat τ} {j : Fin n}
    (h : ((s.take b).queue j).qmeta ≠ QMeta.free) :
    (s.allocated j ∧ ((s.take b).queue j).qmeta.connid = s.owner j) ∨
      (s.route b = .alloc j ∧ ((s.take b).queue j).qmeta.connid = b.connid) := by
  rcases take_qmeta s b j with e | e | ⟨hr, e⟩
  · rw [e] at h
    exact Or.inl ⟨h, by rw [e]; rfl⟩
  · exact absurd e h
  · exact Or.inr ⟨hr, by rw [e]⟩

/-- **An accepted beat.** -/
theorem exclusive_take {s : Sched n τ} (h : s.ExclusiveInv) {b : RxBeat τ} (hp : s.Placed b) :
    (∀ j k, ((s.take b).queue j).qmeta ≠ QMeta.free → ((s.take b).queue k).qmeta ≠ QMeta.free →
      ((s.take b).queue j).qmeta.connid = ((s.take b).queue k).qmeta.connid → j = k) ∧
    ∀ k x, (s.take b).strobe (.queue k) = some x → ((s.take b).queue k).qmeta ≠ QMeta.free →
      x.connid = ((s.take b).queue k).qmeta.connid := by
  refine ⟨fun j k hj hk e => ?_, fun k x hx hk => ?_⟩
  · rcases take_allocated hj with ⟨hj, oj⟩ | ⟨rj, oj⟩ <;>
      rcases take_allocated hk with ⟨hk, ok⟩ | ⟨rk, ok⟩ <;> rw [oj, ok] at e
    · exact h.one j k hj hk e
    · exact absurd e (hp.opened k rk j hj)
    · exact absurd e.symm (hp.opened j rj k hk)
    · rw [rj] at rk
      cases rk
      rfl
  · by_cases hport : (s.route b).port = some (.queue k)
    · -- the beat itself
      obtain ⟨x', hx', hline⟩ := strobe_take_self hport
      obtain rfl : x' = x := Option.some.inj (hx'.symm.trans hx)
      have hconn : x'.connid = b.connid := congrArg Line.connid hline
      rw [hconn]
      rcases take_allocated hk with ⟨hold, ok⟩ | ⟨-, ok⟩
      · rw [ok]
        cases hr : s.route b with
        | matchQueue j =>
            rw [hr] at hport
            cases hport
            exact (hp.matched k hr).2.symm
        | alloc j =>
            rw [hr] at hport
            cases hport
            -- the queue it opens was free
            have hfree := of_decide_eq_true (Bool.and_eq_true_iff.mp (route_opened hr).1).2
            exact absurd hfree hold
        | matchSingle | single | reject => rw [hr] at hport; cases hport
      · exact ok.symm
    · rw [strobe_take_other hport] at hx
      rcases take_allocated hk with ⟨hold, ok⟩ | ⟨hr, -⟩
      · rw [ok]
        exact h.written k x hx hold
      · rw [hr] at hport
        exact absurd rfl hport

/-- **One clock edge.** -/
theorem exclusive_edge [Inhabited τ] {s : Sched n τ} (h : s.ExclusiveInv) {i : SchedIn τ}
    (hf : s.FairEdge i) : (s.clock i).ExclusiveInv := by
  unfold Sched.clock
  split
  · exact exclusive_reset
  · cases hacc : s.accepted i.rx with
    | none =>
        have hidle : (s.edge i.rx i.txTready).inp = s.idle := inEdge_idle hacc
        refine ⟨⟨fun j k => ?_, fun k x hx => ?_⟩, ?_⟩
        · rw [Sched.allocated, Sched.allocated, Sched.owner, Sched.owner, hidle]
          exact h.one j k
        · rw [hidle, strobe_idle] at hx
          cases hx
        · rw [hidle]
          exact h.metaSingle
    | some b =>
        have htake : (s.edge i.rx i.txTready).inp = s.take b := inEdge_take hacc
        obtain ⟨hone, hwritten⟩ := exclusive_take h (placed_of_fair h.metaSingle (hf b hacc))
        refine ⟨⟨fun j k => ?_, fun k x hx => ?_⟩, ?_⟩
        · rw [Sched.allocated, Sched.allocated, Sched.owner, Sched.owner, htake]
          exact hone j k
        · rw [htake] at hx
          rw [Sched.allocated, Sched.owner, htake]
          exact hwritten k x hx
        · rw [htake]
          exact take_metaSingle h.metaSingle b

/-- **A session owns one queue.** In every state a run of fair beats reaches, whatever the sessions,
    payloads, sizes and stalls: no two allocated queues have one session, what enters an allocated queue
    is of its session; and a fair beat is not matched to a free queue, nor opens one for a session that
    has one. -/
theorem session_owns_one_queue [Inhabited τ] {s : Sched n τ}
    (hr : Reachable Sched.clock Sched.FairEdge (Sched.reset n τ) s) :
    s.Exclusive ∧ ∀ b, s.Fair b → s.Placed b := by
  have h : s.ExclusiveInv := hr.invariant exclusive_reset fun _ _ h hf => exclusive_edge h hf
  exact ⟨h.toExclusive, fun b hf => placed_of_fair h.metaSingle hf⟩

end Run

section Source

attribute [local instance] axisDataFifos

/-- The headers of two sessions, one after the other. -/
def twoSessions : Sched 2 Unit :=
  run Sched.clock (Sched.reset 2 Unit)
    [⟨false, some ⟨0, 256, 0, 128, 5, false, 1#512 <<< 480, ()⟩, true⟩, ⟨false, none, true⟩,
      ⟨false, some ⟨0, 256, 1, 128, 6, false, 1#512 <<< 480, ()⟩, true⟩]

theorem session_owns_one_queue_two :
    twoSessions.allocated 0 ∧ twoSessions.allocated 1 ∧ twoSessions.Exclusive := by
  have hr : Reachable Sched.clock Sched.FairEdge (Sched.reset 2 Unit) twoSessions :=
    Reachable.of_run _ (by decide +kernel)
  exact ⟨by decide +kernel, by decide +kernel, (session_owns_one_queue hr).1⟩

end Source

/-! ## 3. A full queue -/

/-- A beat that does not complete the request of its queue. -/
theorem extend_open {q : QueueRegs τ} {b : RxBeat τ} (h : q.completes b q.counterInst = false) :
    (q.extend b).qmeta = q.qmeta ∧ (q.extend b).credits = q.credits ∧ (q.extend b).counter = q.counter ∧
      (q.extend b).counterInst = countedBytes b q.counterInst := by
  rw [QueueRegs.extend, count_eq, if_neg (Bool.eq_false_iff.mp h)]
  exact ⟨rfl, rfl, rfl, rfl⟩

/-- A line of session 5, in packets of 4096 bytes, of a request that declares 65536. -/
def longBeat (payload : BitVec 512) (tlast : Bool) : RxBeat Unit := ⟨0, 65536, 0, 4096, 5, tlast, payload, ()⟩

/-- A line with bit 480 set. -/
def flaggedBeat : RxBeat Unit := longBeat (1#512 <<< 480) false

section Stuffed

variable [FifoKind]

/-- **Queue 0 is being filled by session 5**: `m` lines of it are in the FIFO and one on its strobe, `t`
    packets have ended; queue 1 is free, and nothing is read. -/
structure Stuffed (s : Sched 2 Unit) (m t : Nat) : Prop where
  rxTready : s.inp.rxTready = true
  metaSingle : s.inp.metaSingle = QMeta.free
  owned : (s.inp.queue 0).qmeta = ⟨0, 0, 5⟩
  counter : (s.inp.queue 0).counter = 65536
  counterInst : (s.inp.queue 0).counterInst.toNat = 4096 * t
  free : (s.inp.queue 1).qmeta = QMeta.free
  credits : ∀ k, (s.inp.queue k).credits = 0
  deduct : ∀ k, s.out.deduct k = 0
  sel : ∀ k, s.out.sel k = false
  strobe : (s.inp.queue 0).tvalid = true
  noSingle : s.inp.tvalidSingle = false
  single : s.fifoSingle.items = []
  count : (s.fifo 0).items.length = m

variable {s : Sched 2 Unit} {m t : Nat}

theorem stuffed_out (h : Stuffed s m t) :
    s.outEdge.sel = (fun _ => false) ∧ s.outEdge.deduct = fun _ => 0 := by
  have hd : ∀ k, s.deducted k = 0 := fun k => by rw [Sched.deducted, h.credits, h.deduct, if_pos rfl]
  have hc : ∀ k, s.hasCredit k = false := fun k => by rw [Sched.hasCredit, h.credits, hd]; rfl
  have hv : s.fifoSingle.tvalid = false := StreamFifo.tvalid_of_empty h.single
  have hlast : lastFin (fun k => s.out.sel k && s.hasCredit k) = none := by
    rw [show (fun k => s.out.sel k && s.hasCredit k) = fun _ => false from
      funext fun k => by rw [hc, Bool.and_false]]
    rfl
  have hfirst : firstFin s.hasCredit = none := by
    rw [show s.hasCredit = fun _ => false from funext hc]
    rfl
  rw [Sched.outEdge, hv, if_neg Bool.false_ne_true, hlast, hfirst]
  exact ⟨rfl, funext hd⟩

/-- A further line of session 5, while there is room. -/
theorem stuffed_route (h : Stuffed s m t) (hm : m < fifoDepth) (p : BitVec 512) (last : Bool) :
    s.route (longBeat p last) = .matchQueue 0 := by
  have hroom : (s.fifo 0).tready = true := Fifo.tready_iff.mpr (by rw [h.count]; exact hm)
  have hsingle : (decide ((longBeat p last).connid = s.inp.metaSingle.connid) && s.fifoSingle.tready) =
      false := by
    rw [h.metaSingle]
    rfl
  have hmatch : s.matchesQueue (longBeat p last) 0 = true := by
    rw [Sched.matchesQueue, h.owned, hroom]
    rfl
  rw [Sched.route, hsingle, if_neg Bool.false_ne_true, firstFin_zero rfl hmatch]

/-- The bytes counted with a further line: the request stays open. -/
theorem stuffed_count (h : Stuffed s m t) (p : BitVec 512) {last : Bool} (ht : t + last.toNat ≤ 15) :
    (s.inp.queue 0).completes (longBeat p last) (s.inp.queue 0).counterInst = false ∧
    (countedBytes (longBeat p last) (s.inp.queue 0).counterInst).toNat = 4096 * (t + last.toNat) := by
  have hinst := h.counterInst
  cases last with
  | false => exact ⟨rfl, hinst⟩
  | true =>
      have hlen : ((longBeat p true).length.setWidth 32).toNat = 4096 := rfl
      have hbound : t + 1 ≤ 15 := ht
      have hsum : ((s.inp.queue 0).counterInst + (longBeat p true).length.setWidth 32).toNat =
          4096 * (t + 1) := by
        rw [BitVec.toNat_add, hinst, hlen]
        omega
      refine ⟨?_, hsum⟩
      have hless : ¬ (s.inp.queue 0).counterInst + (longBeat p true).length.setWidth 32 ≥
          (s.inp.queue 0).counter := by
        have hsize : (65536 : BitVec 32).toNat = 65536 := rfl
        rw [ge_iff_le, BitVec.le_def, hsum, h.counter, hsize]
        omega
      rw [QueueRegs.completes, decide_eq_false hless, Bool.and_false]

theorem stuffed_edge (h : Stuffed s m t) (hm : m < fifoDepth) (p : BitVec 512) {last : Bool}
    (ht : t + last.toNat ≤ 15) :
    Stuffed (s.edge (some (longBeat p last)) true) (m + 1) (t + last.toNat) := by
  have hroute := stuffed_route h hm p last
  have hacc : s.accepted (some (longBeat p last)) = some (longBeat p last) := if_pos h.rxTready
  have hinp : (s.edge (some (longBeat p last)) true).inp = s.take (longBeat p last) := inEdge_take hacc
  have htake : s.take (longBeat p last) = { s.inp with
      rxTready := true
      queue := Function.update s.cleared 0 ((s.cleared 0).extend (longBeat p last)) } := by
    rw [Sched.take, hroute]
  obtain ⟨hopen, hcounted⟩ := stuffed_count h p ht
  obtain ⟨hmeta, hcredits, hcounter, hinst⟩ := extend_open (q := s.cleared 0) hopen
  have hzero : (s.edge (some (longBeat p last)) true).inp.queue 0 =
      (s.cleared 0).extend (longBeat p last) := by
    rw [hinp, htake]
    exact Function.update_self (0 : Fin 2) _ s.cleared
  have hone : (s.edge (some (longBeat p last)) true).inp.queue 1 = s.cleared 1 := by
    rw [hinp, htake]
    exact Function.update_of_ne (show (1 : Fin 2) ≠ 0 by decide) ((s.cleared 0).extend (longBeat p last))
      s.cleared
  have hclear : ∀ k, (s.cleared k).credits = 0 := fun k => by rw [cleared_credits, h.credits, ite_self]
  obtain ⟨hsel, hdeduct⟩ := stuffed_out h
  refine ⟨by rw [hinp, htake], by rw [hinp, htake]; exact h.metaSingle,
    by rw [hzero, hmeta]; exact h.owned, by rw [hzero, hcounter]; exact h.counter,
    by rw [hzero, hinst]; exact hcounted, by rw [hone]; exact h.free, ?_,
    fun k => congrFun hdeduct k, fun k => congrFun hsel k, by rw [hzero]; exact count_tvalid ..,
    by rw [hinp, htake]; exact h.noSingle, ?_, ?_⟩
  · intro k
    obtain rfl | rfl : k = 0 ∨ k = 1 := by omega
    · rw [hzero, hcredits]; exact hclear 0
    · rw [hone]; exact hclear 1
  · rw [edge_fifoSingle, strobe_single_none h.noSingle]
    exact StreamFifo.edge_items_empty h.single _
  · have hstrobe : s.inp.strobe (.queue 0) = some (s.inp.queue 0).tdata := by
      rw [InRegs.strobe, h.strobe, if_pos rfl]
    have hread : s.popReady (.queue 0) = false := by rw [Sched.popReady, h.sel, Bool.false_and]
    rw [edge_fifo, hstrobe, hread, StreamFifo.edge_items_hold,
      Fifo.written_some (Fifo.tready_iff.mpr (by rw [h.count]; exact hm)), List.length_append, h.count]
    rfl

/-- The edge that brings a line of session 5. -/
def longEdge (p : BitVec 512) (last : Bool) : SchedIn Unit := ⟨false, some (longBeat p last), true⟩

theorem stuffed_run (h : Stuffed s m t) (lasts : List Bool) (hm : m + lasts.length ≤ fifoDepth)
    (ht : t + lasts.count true ≤ 15) :
    Stuffed (run Sched.clock s (lasts.map (longEdge 0))) (m + lasts.length) (t + lasts.count true) := by
  induction lasts generalizing s m t with
  | nil => exact h
  | cons last lasts ih =>
      have hcount : (last :: lasts).count true = last.toNat + lasts.count true := by
        cases last <;> simp [Nat.add_comm]
      rw [List.length_cons] at hm
      rw [hcount] at ht ⊢
      rw [List.map_cons, run_cons, List.length_cons, Nat.add_comm lasts.length, ← Nat.add_assoc,
        ← Nat.add_assoc]
      exact ih (stuffed_edge h (by omega) 0 (by omega)) (by omega) (by omega)

/-- A line with bit 480 set that finds the queue full opens the other one. -/
theorem stuffed_full (h : Stuffed s fifoDepth t) : s.route flaggedBeat = .alloc 1 := by
  have hfull : (s.fifo 0).tready = false := by
    rw [Fifo.tready, h.count]
    exact decide_eq_false (Nat.lt_irrefl _)
  have hsingle : (decide (flaggedBeat.connid = s.inp.metaSingle.connid) && s.fifoSingle.tready) = false := by
    rw [h.metaSingle]
    rfl
  have hmatch : s.matchesQueue flaggedBeat = fun _ => false := by
    funext k
    obtain rfl | rfl : k = 0 ∨ k = 1 := by omega
    · rw [Sched.matchesQueue, hfull, Bool.and_false]
    · rw [Sched.matchesQueue, h.free]; rfl
  have hfits : s.fitsSingle flaggedBeat = false := by
    rw [Sched.fitsSingle, show flaggedBeat.tlast = false from rfl, Bool.and_false, Bool.false_and]
  have halloc : s.canAlloc flaggedBeat = fun k => decide (k = 1) := by
    funext k
    obtain rfl | rfl : k = 0 ∨ k = 1 := by omega
    · rw [Sched.canAlloc, h.owned]; decide +kernel
    · rw [Sched.canAlloc, h.free]; decide +kernel
  rw [Sched.route, hsingle, if_neg Bool.false_ne_true, hmatch, halloc, hfits]
  rfl

theorem stuffed_twice (h : Stuffed s fifoDepth t) :
    ((s.clock (longEdge (1#512 <<< 480) false)).inp.queue 0).qmeta = ⟨0, 0, 5⟩ ∧
    ((s.clock (longEdge (1#512 <<< 480) false)).inp.queue 1).qmeta = ⟨0, 0, 5⟩ := by
  have hacc : s.accepted (some flaggedBeat) = some flaggedBeat := if_pos h.rxTready
  have hinp : (s.clock (longEdge (1#512 <<< 480) false)).inp = s.take flaggedBeat := inEdge_take hacc
  have hbooks := books_take_alloc (stuffed_full h)
  rw [hinp]
  constructor
  · have hzero := congrArg Books.qmeta (congrFun hbooks 0)
    rw [Function.update_of_ne (by decide)] at hzero
    exact hzero.trans h.owned
  · have hone := congrArg Books.qmeta (congrFun hbooks 1)
    rw [Function.update_self] at hone
    exact hone

end Stuffed

section Source

attribute [local instance] axisDataFifos

/-- The `tlast` bits of the lines behind the header, 64 lines to a packet. -/
def longLasts : List Bool := (List.range fifoDepth).map fun j => decide (j % 64 = 62)

/-- The header of the request, and 514 more of its lines. -/
def longRun : List (SchedIn Unit) := longEdge (1#512 <<< 480) false :: longLasts.map (longEdge 0)

/-- The scheduler with the FIFO of queue 0 full. -/
def stuffedSched : Sched 2 Unit := run Sched.clock (Sched.reset 2 Unit) longRun

theorem stuffed_reached : Stuffed stuffedSched fifoDepth 8 := by
  have hstart : Stuffed ((Sched.reset 2 Unit).clock (longEdge (1#512 <<< 480) false)) 0 0 := by
    constructor <;> decide +kernel
  have hcount : longLasts.count true = 8 := by decide +kernel
  have hlength : longLasts.length = fifoDepth := by rw [longLasts, List.length_map, List.length_range]
  have hrun := stuffed_run hstart longLasts (by rw [hlength, Nat.zero_add]) (by rw [hcount]; decide)
  rw [hcount, hlength, Nat.zero_add, Nat.zero_add] at hrun
  rw [stuffedSched, longRun, run_cons]
  exact hrun

/-- **A full queue is opened twice**: a line of session 5 with bit 480 set opens queue 1, while queue 0
    is session 5's. -/
theorem full_queue_opened_twice :
    Reachable Sched.clock (fun _ _ => True) (Sched.reset 2 Unit) stuffedSched ∧
    ¬ stuffedSched.Placed flaggedBeat ∧
    ¬ (stuffedSched.clock (longEdge (1#512 <<< 480) false)).Exclusive := by
  have h := stuffed_reached
  have hroute := stuffed_full h
  have howned : stuffedSched.allocated 0 := by rw [Sched.allocated, h.owned]; decide
  refine ⟨Reachable.of_run longRun (Meets.of_forall (fun _ _ => trivial) _ _), fun hp => ?_, fun he => ?_⟩
  · exact hp.opened 1 hroute 0 howned (by rw [Sched.owner, h.owned]; rfl)
  · obtain ⟨hzero, hone⟩ := stuffed_twice h
    have hno : (0 : Fin 2) = 1 := he.one 0 1 (by rw [Sched.allocated, hzero]; decide)
      (by rw [Sched.allocated, hone]; decide) (by rw [Sched.owner, Sched.owner, hzero, hone])
    cases hno

end Source

end Frac.Reassembly
