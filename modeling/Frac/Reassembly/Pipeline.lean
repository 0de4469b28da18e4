/-
  File:      Frac/Reassembly/Pipeline.lean
  Subject:   What the scheduler's FIFOs and output pipeline are made of, against what
             Frac.Reassembly.Scheduler takes them for: the `axis_data_fifo_*` (`DEPTH(512)`,
             `RAM_PIPELINE(1)`), and `axis_pipeline_sched_inst` (scheduler.v line 313: ten skid
             buffers, the sink tied to ready, `s_axis_tready` read by nothing).

  * **`axisDataFifos_refined`** -- in every run a FIFO of the source and the queue of `axisDataFifos`
    hold, take, show and hand out the same;
  * `PipedSched` -- the registers and FIFOs, the pipeline an elastic chain;
  * `Simulates` -- the delay line beside the chain: all open and holding the same, or both just reset;
  * **`piped_refines`** -- in every run, resets at any edges included, the scheduler with the registers
    and the one with the delay line agree edge by edge, and no beat is ever offered to a pipeline that
    is not ready.
-/
import Frac.Axis.Fifo
import Frac.Axis.Register
import Frac.Reassembly.Scheduler

open Clocked Frac.Axis

namespace Frac.Reassembly

variable {n : Nat} {τ : Type}

/-- **The FIFOs are what they are taken for**: a memory of 512 words with two read stages behind it, with
    resets at any edges, and the queue that `axisDataFifos` makes of a FIFO. -/
theorem axisDataFifos_refined (mem : BitVec 9 → τ) (is : List (Elastic.In τ)) :
    let t := run Elastic.Tally.clock (Elastic.Tally.init (taxiAxisFifo 9 1 mem)) is
    let q := run Elastic.Tally.clock
      (Elastic.Tally.init (StreamFifo.part axisDataFifos.depth axisDataFifos.latency τ)) is
    t.state.items = q.state.items ∧ t.state.sAxisTready = q.state.tready ∧ t.state.mAxis = q.state.head? ∧
      t.accepted = q.accepted ∧ t.sent = q.sent :=
  taxiAxisFifo_refines 9 1 (by decide) mem is

/-- `axis_pipeline_register` with `LENGTH(10)`, a beat on its data lines. -/
def outputPipeline (τ : Type) : Elastic ((id : QBeat τ → QBeat τ)^[pipeLength]) := skidChain id pipeLength

variable [FifoKind]

structure PipedSched (n : Nat) (τ : Type) where
  inp : InRegs n τ
  out : OutRegs n
  fifo : Fin n → DataFifo (QBeat τ)
  fifoSingle : DataFifo (QBeat τ)
  pipe : (outputPipeline τ).State
  fifoOut : DataFifo (QBeat τ)

namespace PipedSched

/-- All but the pipeline, beside a delay line. -/
def beside (r : PipedSched n τ) (d : Delay pipeLength (QBeat τ)) : Sched n τ :=
  ⟨r.inp, r.out, r.fifo, r.fifoSingle, d, r.fifoOut⟩

/-- `output_queue_tdata`, where `output_queue_tvalid_FIFO` is high. -/
def forwarded (r : PipedSched n τ) : Option (QBeat τ) := (r.beside .empty).forwarded

/-- `output_tready_pip`. -/
def pipeReady (r : PipedSched n τ) : Bool := (outputPipeline τ).tready r.pipe true

/-- `output_tdata_pip`, where `output_tvalid_pip` is high. -/
def piped (r : PipedSched n τ) : Option (QBeat τ) := (outputPipeline τ).out r.pipe r.forwarded

def reset (n : Nat) (τ : Type) [Inhabited τ] : PipedSched n τ where
  inp := .reset
  out := .reset
  fifo := fun _ => .empty
  fifoSingle := .empty
  pipe := (outputPipeline τ).init
  fifoOut := .empty

/-- The clock edge with `rst` low. -/
def edge (r : PipedSched n τ) (rx : Option (RxBeat τ)) (txTready : Bool) : PipedSched n τ where
  inp := (r.beside .empty).inEdge rx
  out := (r.beside .empty).outEdge
  fifo := fun k => (r.fifo k).edge (r.inp.strobe (.queue k)) ((r.beside .empty).popReady (.queue k))
  fifoSingle := r.fifoSingle.edge (r.inp.strobe .single) ((r.beside .empty).popReady .single)
  pipe := (outputPipeline τ).edge r.pipe r.forwarded true
  fifoOut := r.fifoOut.edge r.piped txTready

def clock [Inhabited τ] (r : PipedSched n τ) (i : SchedIn τ) : PipedSched n τ :=
  if i.rst then
    { PipedSched.reset n τ with pipe := (outputPipeline τ).clear r.pipe r.forwarded true }
  else r.edge i.rx i.txTready

/-- Just reset: nothing under way and nothing forwarded. -/
structure Fresh (r : PipedSched n τ) (d : Delay pipeLength (QBeat τ)) : Prop where
  pipe : r.pipe = (outputPipeline τ).init
  delay : d = .empty
  forwarded : r.forwarded = none

/-- Under way: every register open, holding what the delay line holds. -/
structure Flowing (r : PipedSched n τ) (d : Delay pipeLength (QBeat τ)) : Prop where
  inv : (outputPipeline τ).inv r.pipe
  isOpen : Open id pipeLength pipeLength r.pipe
  stages : stages id pipeLength r.pipe = d.stages

/-- **The two schedulers beside each other.** -/
def Simulates (r : PipedSched n τ) (s : Sched n τ) : Prop :=
  s = r.beside s.pipe ∧ (Fresh r s.pipe ∨ Flowing r s.pipe)

/-- A register that is just reset shows nothing and takes nothing. -/
theorem piped_init (r : PipedSched n τ) (h : r.pipe = (outputPipeline τ).init) : r.piped = none := by
  have hout := stages_out (f := id) (outputPipeline τ).init (v := id) rfl r.forwarded
  rw [Option.map_id, id] at hout
  rw [piped, h]
  exact hout

theorem fresh_edge {r : PipedSched n τ} {d : Delay pipeLength (QBeat τ)} (h : Fresh r d)
    (rx : Option (RxBeat τ)) (t : Bool) : Flowing (r.edge rx t) (d.shift r.forwarded) := by
  obtain ⟨hopen, hstages⟩ := init_edge (f := id) (n := pipeLength) (none : Option (QBeat τ))
  have hpipe : (r.edge rx t).pipe = (outputPipeline τ).edge (outputPipeline τ).init none true := by
    show (outputPipeline τ).edge r.pipe r.forwarded true = _
    rw [h.pipe, h.forwarded]
  refine ⟨?_, ?_, ?_⟩
  · rw [hpipe]
    exact (outputPipeline τ).inv_edge _ _ _ (outputPipeline τ).inv_init
  · rw [hpipe]
    exact hopen
  · rw [hpipe, h.forwarded, h.delay]
    exact hstages

theorem flowing_edge {r : PipedSched n τ} {d : Delay pipeLength (QBeat τ)} (h : Flowing r d)
    (rx : Option (RxBeat τ)) (t : Bool) : Flowing (r.edge rx t) (d.shift r.forwarded) := by
  refine ⟨(outputPipeline τ).inv_edge _ _ _ h.inv, ?_, ?_⟩
  · exact open_all (Nat.le_succ pipeLength) (open_edge h.inv h.isOpen r.forwarded) pipeLength
  · have hedge := stages_edge (Nat.le_refl pipeLength) h.isOpen (v := id) rfl r.forwarded
    rw [Option.map_id, List.map_id, List.map_id, h.stages] at hedge
    exact hedge

/-- What the pipeline shows is what the delay line hands out. -/
theorem piped_eq {r : PipedSched n τ} {d : Delay pipeLength (QBeat τ)} (h : Fresh r d ∨ Flowing r d) :
    r.piped = d.last := by
  rcases h with h | h
  · rw [piped_init r h.pipe, h.delay]
    rfl
  · have hout := stages_out (f := id) r.pipe (v := id) rfl r.forwarded
    rw [Option.map_id, h.stages] at hout
    have hsome : d.stages ≠ [] := List.ne_nil_of_length_pos (by rw [d.size]; decide)
    rw [List.getLast?_eq_some_getLast hsome] at hout
    rw [Delay.last, List.getLast?_eq_some_getLast hsome]
    exact hout

/-- What is forwarded is taken. -/
theorem forwarded_taken {r : PipedSched n τ} {d : Delay pipeLength (QBeat τ)} (h : Fresh r d ∨ Flowing r d)
    {x : QBeat τ} (hx : r.forwarded = some x) : r.pipeReady = true := by
  rcases h with h | h
  · rw [h.forwarded] at hx
    cases hx
  · exact open_tready (Nat.le_refl pipeLength) h.isOpen

/-- Out of the reset no FIFO is selected. -/
theorem forwarded_reset [Inhabited τ] : (PipedSched.reset n τ).forwarded = none := by
  have hready : ∀ p, ((PipedSched.reset n τ).beside .empty).popReady p = false := fun p => by cases p <;> rfl
  unfold forwarded Sched.forwarded
  cases ((PipedSched.reset n τ).beside .empty).selected with
  | none => rfl
  | some p =>
      show (((PipedSched.reset n τ).beside .empty).fifoAt p).popped _ = none
      rw [hready, StreamFifo.popped_false]

/-- The edges agree but for what the pipelines show. -/
theorem beside_edge {r : PipedSched n τ} {d : Delay pipeLength (QBeat τ)} (h : r.piped = d.last)
    (rx : Option (RxBeat τ)) (t : Bool) :
    (r.beside d).edge rx t = (r.edge rx t).beside (d.shift r.forwarded) := by
  have hout : (r.edge rx t).fifoOut = r.fifoOut.edge d.last t := by
    show r.fifoOut.edge r.piped t = _
    rw [h]
  show (⟨(r.edge rx t).inp, (r.edge rx t).out, (r.edge rx t).fifo, (r.edge rx t).fifoSingle,
    d.shift r.forwarded, r.fifoOut.edge d.last t⟩ : Sched n τ) = _
  rw [← hout]
  rfl

/-- **One edge** of the two schedulers. -/
theorem simulates_clock [Inhabited τ] {r : PipedSched n τ} {s : Sched n τ} (h : Simulates r s)
    (i : SchedIn τ) : Simulates (r.clock i) (s.clock i) := by
  obtain ⟨hsame, hpipe⟩ := h
  obtain ⟨d, rfl⟩ : ∃ d, s = r.beside d := ⟨_, hsame⟩
  change Fresh r d ∨ Flowing r d at hpipe
  rw [clock, Sched.clock]
  cases i.rst with
  | true =>
      have hclear : (outputPipeline τ).clear r.pipe r.forwarded true = (outputPipeline τ).init :=
        skidChain_clear (f := id) (n := pipeLength) _ _ _
      exact ⟨rfl, Or.inl ⟨hclear, rfl, forwarded_reset⟩⟩
  | false =>
      rw [if_neg Bool.false_ne_true, if_neg Bool.false_ne_true, beside_edge (piped_eq hpipe)]
      refine ⟨rfl, Or.inr ?_⟩
      rcases hpipe with h | h
      · exact fresh_edge h i.rx i.txTready
      · exact flowing_edge h i.rx i.txTready

theorem simulates_reset [Inhabited τ] : Simulates (PipedSched.reset n τ) (Sched.reset n τ) :=
  ⟨rfl, Or.inl ⟨rfl, rfl, forwarded_reset⟩⟩

end PipedSched

/-- **The pipeline's registers are the delay line**: in every run, resets at any edges included, the
    scheduler with the ten skid buffers and the scheduler with the ten-edge delay line have the same
    registers and FIFOs after every edge and so send the same beats, although nothing reads the
    pipeline's `s_axis_tready`: no beat is ever forwarded at an edge at which it is low. -/
theorem piped_refines [Inhabited τ] (is : List (SchedIn τ)) :
    let r := run PipedSched.clock (PipedSched.reset n τ) is
    let s := run Sched.clock (Sched.reset n τ) is
    s = r.beside s.pipe ∧ r.piped = s.pipe.last ∧ (∀ x, r.forwarded = some x → r.pipeReady = true) := by
  have h : PipedSched.Simulates (run PipedSched.clock (PipedSched.reset n τ) is)
      (run Sched.clock (Sched.reset n τ) is) :=
    run_related (R := PipedSched.Simulates) (fun _ _ i h => PipedSched.simulates_clock h i)
      PipedSched.simulates_reset is
  exact ⟨h.1, PipedSched.piped_eq h.2, fun _ hx => PipedSched.forwarded_taken h.2 hx⟩

end Frac.Reassembly
