/-
  File:      Frac/Reassembly/Merge.lean
  Subject:   The way out of the scheduler's queues: what the output pipeline is shown against what is
             read from the queue FIFOs and the single-packet FIFO, whatever the arbiter decides.

  * `MergeSys` -- the scheduler with what has been written to each FIFO, read from it, and shown to the
    pipeline since the last reset; the arbiter's registers may be set to anything at every edge;
  * `Merged` -- **the merge is lossless**; `queue_merge_lossless` -- in every run.
-/
import Frac.Lib.Clocked
import Frac.Lib.Interleave
import Frac.Reassembly.Scheduler

namespace Frac.Reassembly

open Clocked

variable [FifoKind] {n : Nat} {τ : Type}

/-! ## 1. What is read and what is shown -/

/-- The beat read from a FIFO at this edge. -/
def Sched.popped (s : Sched n τ) (p : Port n) : Option (QBeat τ) := (s.fifoAt p).popped (s.popReady p)

/-- The scheduler with its history since the last reset: the beats written to each FIFO, the beats read
    from it, and the beats presented to the output pipeline. -/
structure MergeSys (n : Nat) (τ : Type) where
  sched : Sched n τ
  entered : Port n → List (QBeat τ)
  left : Port n → List (QBeat τ)
  presented : List (QBeat τ)

def MergeSys.init (n : Nat) (τ : Type) [Inhabited τ] : MergeSys n τ :=
  ⟨Sched.reset n τ, fun _ => [], fun _ => [], []⟩

/-- The input pins at one clock edge, and the arbiter's decision: the registers it sets, or `none` for
    the decision of the output block itself. -/
structure MergeIn (n : Nat) (τ : Type) where
  pins : SchedIn τ
  decision : Option (OutRegs n)

def MergeSys.clock [Inhabited τ] (y : MergeSys n τ) (i : MergeIn n τ) : MergeSys n τ :=
  if i.pins.rst then MergeSys.init n τ
  else
    { sched := { y.sched.edge i.pins.rx i.pins.txTready with out := i.decision.getD y.sched.outEdge }
      entered := fun p => y.entered p ++ ((y.sched.fifoAt p).written (y.sched.inp.strobe p)).toList
      left := fun p => y.left p ++ (y.sched.popped p).toList
      presented := y.presented ++ y.sched.forwarded.toList }

/-- Without decisions from outside this is the scheduler. -/
theorem merge_run_sched [Inhabited τ] (is : List (SchedIn τ)) :
    (run MergeSys.clock (MergeSys.init n τ) (is.map (⟨·, none⟩))).sched =
      run Sched.clock (Sched.reset n τ) is := by
  suffices h : ∀ y : MergeSys n τ, (run MergeSys.clock y (is.map (⟨·, none⟩))).sched =
      run Sched.clock y.sched is from h _
  induction is with
  | nil => exact fun _ => rfl
  | cons i is ih =>
      intro y
      rw [List.map_cons, run_cons, run_cons, ih]
      congr 1
      unfold MergeSys.clock Sched.clock
      split <;> rfl

/-! ## 2. The merge -/

/-- **The merge is lossless.** A beat is read at the edge to come exactly if it is presented at it, from
    one FIFO at most; and what has been presented interleaves what has been read from the FIFOs, which
    is in each case the beginning of what has been written to it. -/
structure Merged (y : MergeSys n τ) : Prop where
  same : ∀ x, (∃ p, y.sched.popped p = some x) ↔ y.sched.forwarded = some x
  one : ∀ p q, (y.sched.popped p).isSome = true → (y.sched.popped q).isSome = true → p = q
  interleaves : Interleaves y.left y.presented
  prefixes : ∀ p, y.left p ++ (y.sched.fifoAt p).items = y.entered p

section Edge

variable {s : Sched n τ}

theorem popReady_of_popped {p : Port n} {x : QBeat τ} (h : s.popped p = some x) :
    s.popReady p = true := by
  refine Bool.eq_true_of_not_eq_false fun e => ?_
  rw [Sched.popped, e] at h
  cases h

theorem forwarded_of_popped {p : Port n} {x : QBeat τ} (h : s.popped p = some x) :
    s.forwarded = some x := by
  have hready := popReady_of_popped h
  rw [forwarded_of_popReady hready, ← h, Sched.popped, hready, StreamFifo.popped_true]

/-- What is read is what is presented. -/
theorem popped_iff_forwarded (s : Sched n τ) (x : QBeat τ) :
    (∃ p, s.popped p = some x) ↔ s.forwarded = some x := by
  refine ⟨fun ⟨p, hp⟩ => forwarded_of_popped hp, fun h => ?_⟩
  obtain ⟨p, hready, hhead⟩ := popped_of_forwarded h
  exact ⟨p, by rw [Sched.popped, hready, StreamFifo.popped_true, hhead]⟩

theorem popped_one {p q : Port n} (hp : (s.popped p).isSome = true) (hq : (s.popped q).isSome = true) :
    p = q := by
  obtain ⟨x, hx⟩ := Option.isSome_iff_exists.mp hp
  obtain ⟨x', hx'⟩ := Option.isSome_iff_exists.mp hq
  exact popReady_unique (popReady_of_popped hx) (popReady_of_popped hx')

end Edge

/-- What holds of the history: the two fields of `Merged` that are not about one edge. -/
def MergeSys.Kept (y : MergeSys n τ) : Prop :=
  Interleaves y.left y.presented ∧ ∀ p, y.left p ++ (y.sched.fifoAt p).items = y.entered p

theorem kept_clock [Inhabited τ] {y : MergeSys n τ} (h : y.Kept) (i : MergeIn n τ) :
    (y.clock i).Kept := by
  unfold MergeSys.clock
  split
  · exact ⟨.nil, fun p => by cases p <;> rfl⟩
  · refine ⟨h.1.step (fun x hx => (popped_iff_forwarded y.sched x).mpr hx)
      (fun p x hx => forwarded_of_popped hx) fun p q => popped_one, fun p => ?_⟩
    -- the arbiter's registers are no part of a FIFO
    have hfifo : ({ y.sched.edge i.pins.rx i.pins.txTready with
        out := i.decision.getD y.sched.outEdge } : Sched n τ).fifoAt p =
          (y.sched.fifoAt p).edge (y.sched.inp.strobe p) (y.sched.popReady p) := by
      cases p <;> rfl
    show y.left p ++ (y.sched.popped p).toList ++ _ = y.entered p ++ _
    rw [hfifo, List.append_assoc, Sched.popped, StreamFifo.edge_items, ← List.append_assoc, h.2]

/-- **The queues are merged without loss in every run**, with any beats offered, any readiness of `tx`,
    any resets and any sequence of decisions of the arbiter, its own among them. -/
theorem queue_merge_lossless [Inhabited τ] (is : List (MergeIn n τ)) :
    Merged (run MergeSys.clock (MergeSys.init n τ) is) := by
  have hinit : (MergeSys.init n τ).Kept := ⟨.nil, fun p => by cases p <;> rfl⟩
  obtain ⟨h1, h2⟩ := run_meets (P := MergeSys.Kept) (fun _ i h _ => kept_clock h i) hinit is
    (Meets.of_forall (fun _ _ => trivial) _ is)
  exact ⟨popped_iff_forwarded _, fun _ _ => popped_one, h1, h2⟩

end Frac.Reassembly
