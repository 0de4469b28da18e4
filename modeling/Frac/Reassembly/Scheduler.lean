/-
  File:      Frac/Reassembly/Scheduler.lean
  Subject:   The scheduler (`scheduler.v`): it matches beats to queues by connection, holds a
             request until its declared size has arrived, and hands whole requests to the slots.

  Two clocked blocks, each assigning its registers with `=`: inside a block a later statement reads
  what an earlier one wrote, across blocks everything is read as it was before the edge. `inEdge`
  is the input block, `outEdge` the output block (the arbiter); FIFOs, pipeline and output FIFO
  see the registers before the edge too. The ten-stage output pipeline never stalls, its reader
  being always ready.

  The FIFOs are taken with any depth and read latency (`FifoKind`): `axisDataFifos` are the source's
  (`Frac.Reassembly.axisDataFifos_refined`), `idealFifos` hold 512 beats and show each at once.

  `QUEUE_NUM` is the parameter `n`. A beat carries a `tag` besides its wires: proofs use it to say
  which request a beat belongs to, no definition of the model reads it.
-/
import Mathlib
import Frac.Lib.StreamFifo

namespace Frac.Reassembly

/-! ## 1. Beats -/

/-- One beat on scheduler `rx`, by field:
    `{dstPort, packet_size, workload, {length, connID}, tlast, payload}`. -/
structure RxBeat (τ : Type) where
  dstPort : BitVec 16
  packetSize : BitVec 32
  workload : BitVec 16
  length : BitVec 16
  connid : BitVec 16
  tlast : Bool
  payload : BitVec 512
  tag : τ

/-- `rx_is_header`. -/
def RxBeat.isHeader {τ : Type} (b : RxBeat τ) : Bool := b.payload.getLsbD 480

/-- `rx_req_size`. -/
def RxBeat.reqSize {τ : Type} (b : RxBeat τ) : BitVec 16 := b.packetSize.extractLsb' 0 16

/-- One beat in a queue, and on `tx`, by field:
    `{request_end, dstPort, workload_type, {request_size, connID}, tlast, payload}`. -/
structure QBeat (τ : Type) where
  requestEnd : Bool
  dstPort : BitVec 16
  workload : BitVec 16
  size : BitVec 16
  connid : BitVec 16
  tlast : Bool
  payload : BitVec 512
  tag : τ

/-- What `input_tdata` holds out of reset. -/
def QBeat.zero {τ : Type} [Inhabited τ] : QBeat τ := ⟨false, 0, 0, 0, 0, false, 0, default⟩

/-- `input_META`: `{dstPort, workload, connID}` of the request a queue is filled by. -/
structure QMeta where
  dstPort : BitVec 16
  workload : BitVec 16
  connid : BitVec 16
  deriving DecidableEq

/-- All ones: the queue is free. -/
def QMeta.free : QMeta := ⟨BitVec.allOnes 16, BitVec.allOnes 16, BitVec.allOnes 16⟩

@[simp] theorem free_connid : QMeta.free.connid = BitVec.allOnes 16 := rfl

/-! ## 2. Registers -/

/-- What the input block keeps for one queue. -/
structure QueueRegs (τ : Type) where
  tdata : QBeat τ
  tvalid : Bool
  credits : BitVec 8
  qmeta : QMeta
  counter : BitVec 32
  counterInst : BitVec 32

/-- The registers of the input block. -/
structure InRegs (n : Nat) (τ : Type) where
  rxTready : Bool
  queue : Fin n → QueueRegs τ
  tdataSingle : QBeat τ
  tvalidSingle : Bool
  metaSingle : QMeta

/-- The registers of the output block: `output_tready_sel`, `output_tready_single`,
    `output_deduct_credits`, `output_queue_number`. -/
structure OutRegs (n : Nat) where
  sel : Fin n → Bool
  selSingle : Bool
  deduct : Fin n → BitVec 8
  number : BitVec 8

/-- What the FIFOs `axis_data_fifo_*` are taken for: how many beats they hold, and by how many edges
    more than one a beat is late on their output. They hold more beats than are late, and at least
    `DEPTH(512)`. -/
class FifoKind where
  depth : Nat
  latency : Nat
  deep : latency + 1 < depth
  holds : 512 ≤ depth

theorem idealFifos_deep : 0 + 1 < 512 := by decide

theorem axisDataFifos_deep : 2 + 1 < 514 := by decide

theorem axisDataFifos_holds : 512 ≤ 514 := by decide

/-- Ideal FIFOs of 512 beats, which show a beat at the edge after its write. -/
@[reducible] def idealFifos : FifoKind := ⟨512, 0, idealFifos_deep, Nat.le_refl 512⟩

/-- The FIFOs of the source: `DEPTH(512)` words of memory, and two read stages behind it. -/
@[reducible] def axisDataFifos : FifoKind := ⟨514, 2, axisDataFifos_deep, axisDataFifos_holds⟩

section Kind

variable [FifoKind]

def fifoDepth : Nat := FifoKind.depth
abbrev DataFifo (α : Type) := StreamFifo fifoDepth FifoKind.latency α

end Kind

def pipeLength : Nat := 10

variable [FifoKind]

structure Sched (n : Nat) (τ : Type) where
  inp : InRegs n τ
  out : OutRegs n
  fifo : Fin n → DataFifo (QBeat τ)
  fifoSingle : DataFifo (QBeat τ)
  pipe : Delay pipeLength (QBeat τ)
  fifoOut : DataFifo (QBeat τ)

variable {n : Nat} {τ : Type}

def QueueRegs.reset [Inhabited τ] : QueueRegs τ := ⟨QBeat.zero, false, 0, QMeta.free, 0, 0⟩

def InRegs.reset [Inhabited τ] : InRegs n τ := ⟨true, fun _ => .reset, QBeat.zero, false, QMeta.free⟩

def OutRegs.reset : OutRegs n := ⟨fun _ => false, false, fun _ => 0, 0xff⟩

/-- The state the `rst` branches and the FIFOs' resets leave. -/
def Sched.reset (n : Nat) (τ : Type) [Inhabited τ] : Sched n τ where
  inp := .reset
  out := .reset
  fifo := fun _ => .empty
  fifoSingle := .empty
  pipe := .empty
  fifoOut := .empty

/-! ## 3. Where an accepted beat goes -/

/-- The branches of the input block for an accepted beat. -/
inductive Route (n : Nat) where
  /-- the connection of `input_META_single` -/
  | matchSingle
  /-- `MATCH_EXISTING`: the queue its connection is filling -/
  | matchQueue (k : Fin n)
  /-- a request complete in this one beat -/
  | single
  /-- the header of a longer request, for a free queue -/
  | alloc (k : Fin n)
  /-- no queue is available -/
  | reject
  deriving DecidableEq

/-- `input_META[k]` names the beat's connection and `input_tready[k]` is high. -/
def Sched.matchesQueue (s : Sched n τ) (b : RxBeat τ) (k : Fin n) : Bool :=
  decide (b.connid = (s.inp.queue k).qmeta.connid) && (s.fifo k).tready

/-- The one-beat complete request: its declared size is this packet's, and this is its only beat. -/
def Sched.fitsSingle (s : Sched n τ) (b : RxBeat τ) : Bool :=
  b.isHeader && decide (s.inp.metaSingle = QMeta.free) &&
    decide (b.packetSize = b.length.setWidth 32) && b.tlast && s.fifoSingle.tready

def Sched.canAlloc (s : Sched n τ) (b : RxBeat τ) (k : Fin n) : Bool :=
  b.isHeader && decide ((s.inp.queue k).qmeta = QMeta.free)

/-- **The branch an accepted beat takes.** -/
def Sched.route (s : Sched n τ) (b : RxBeat τ) : Route n :=
  if decide (b.connid = s.inp.metaSingle.connid) && s.fifoSingle.tready then .matchSingle
  else match firstFin (s.matchesQueue b) with
    | some k => .matchQueue k
    | none =>
      if s.fitsSingle b then .single
      else match firstFin (s.canAlloc b) with
        | some k => .alloc k
        | none => .reject

/-! ## 4. The input block -/

/-- The credit clear at the top of the input block. -/
def Sched.cleared (s : Sched n τ) (k : Fin n) : QueueRegs τ :=
  { s.inp.queue k with
    credits := if (s.inp.queue k).credits = s.out.deduct k then 0 else (s.inp.queue k).credits }

/-- What matching and allocating a queue share: `input_tdata` is set from `d`, bytes are counted on
    `tlast` only (from `acc` on), and a request that has arrived in full raises a credit and frees
    the queue. `q` has `input_META` and `counter` already set. -/
def QueueRegs.count (q : QueueRegs τ) (b : RxBeat τ) (d : QBeat τ) (acc : BitVec 32) : QueueRegs τ :=
  let q := { q with tvalid := true }
  if b.tlast then
    let acc := acc + b.length.setWidth 32
    if acc ≥ q.counter then
      { q with
        credits := q.credits + 1
        qmeta := QMeta.free
        counterInst := 0
        counter := 0
        tdata := { d with requestEnd := true } }
    else { q with counterInst := acc, tdata := { d with requestEnd := false, tlast := false } }
  else { q with counterInst := acc, tdata := { d with requestEnd := false, tlast := false } }

/-- `MATCH_EXISTING`: workload, port and size are the queue's own. -/
def QueueRegs.extend (q : QueueRegs τ) (b : RxBeat τ) : QueueRegs τ :=
  q.count b
    ⟨false, q.qmeta.dstPort, q.qmeta.workload, q.counter.extractLsb' 0 16, b.connid, b.tlast,
      b.payload, b.tag⟩ q.counterInst

/-- Allocation: workload, port and size come from the header beat. -/
def QueueRegs.allocate (q : QueueRegs τ) (b : RxBeat τ) : QueueRegs τ :=
  { q with qmeta := ⟨b.dstPort, b.workload, b.connid⟩, counter := b.packetSize }.count b
    ⟨false, b.dstPort, b.workload, b.reqSize, b.connid, b.tlast, b.payload, b.tag⟩ 0

/-- The input block for an accepted beat. Strobes of the queues the beat does not go to keep their
    value. -/
def Sched.take (s : Sched n τ) (b : RxBeat τ) : InRegs n τ :=
  let r := { s.inp with queue := s.cleared }
  match s.route b with
  | .matchSingle =>
    { r with
      rxTready := true
      tvalidSingle := true
      tdataSingle := ⟨b.tlast, s.inp.metaSingle.dstPort, s.inp.metaSingle.workload, b.reqSize,
        b.connid, b.tlast, b.payload, b.tag⟩
      metaSingle := if b.tlast then QMeta.free else s.inp.metaSingle }
  | .matchQueue k =>
    { r with
      rxTready := true
      queue := Function.update s.cleared k ((s.cleared k).extend b) }
  | .single =>
    { r with
      rxTready := true
      tvalidSingle := true
      tdataSingle := ⟨true, b.dstPort, b.workload, b.reqSize, b.connid, b.tlast, b.payload, b.tag⟩
      metaSingle := QMeta.free }
  | .alloc k =>
    { r with
      rxTready := true
      queue := Function.update s.cleared k ((s.cleared k).allocate b) }
  | .reject => { r with rxTready := false }

/-- The input block with no beat accepted: every strobe falls. -/
def Sched.idle (s : Sched n τ) : InRegs n τ :=
  { s.inp with
    rxTready := true
    tvalidSingle := false
    queue := fun k => { s.cleared k with tvalid := false } }

/-- The beat accepted at an edge: `rx_tvalid && rx_tready`. -/
def Sched.accepted (s : Sched n τ) (rx : Option (RxBeat τ)) : Option (RxBeat τ) :=
  if s.inp.rxTready then rx else none

def Sched.inEdge (s : Sched n τ) (rx : Option (RxBeat τ)) : InRegs n τ :=
  match s.accepted rx with
  | some b => s.take b
  | none => s.idle

/-! ## 5. The output block -/

/-- The deduct clear at the top of the output block. -/
def Sched.deducted (s : Sched n τ) (k : Fin n) : BitVec 8 :=
  if (s.inp.queue k).credits = s.out.deduct k then 0 else s.out.deduct k

/-- `request_end` of the beat at the head of queue `k`. -/
def Sched.headEnds (s : Sched n τ) (k : Fin n) : Bool :=
  (s.fifo k).head?.any (·.requestEnd)

/-- Queue `active_idx + step`, wrapped once. -/
def nextIdx (active : Fin n) (step : Fin n) : Fin n :=
  if h : active.val + (step.val + 1) < n then ⟨active.val + (step.val + 1), h⟩
  else ⟨active.val + (step.val + 1) - n, by omega⟩

/-- The round-robin search from the queue after `active` on, back to `active` last. -/
def nextFin (active : Fin n) (p : Fin n → Bool) : Option (Fin n) :=
  ((List.finRange n).map (nextIdx active)).find? p

/-- `output_tready_sel` with one queue selected. -/
def only (k : Fin n) : Fin n → Bool := fun j => decide (j = k)

/-- The output block when queue `a` is active and its head ends a request. -/
def Sched.finishRequest (s : Sched n τ) (a : Fin n) : OutRegs n :=
  let sel := Function.update s.out.sel a false
  let deduct := Function.update s.deducted a (s.deducted a + 1)
  let r : OutRegs n := ⟨sel, false, deduct, BitVec.ofNat 8 a.val⟩
  match nextFin a (fun k => (s.fifo k).tvalid && decide ((s.inp.queue k).credits > deduct k)) with
  | some k => { r with sel := Function.update sel k true }
  | none =>
    if s.fifoSingle.tvalid then { r with selSingle := true }
    else if (s.fifo a).tvalid && decide ((s.inp.queue a).credits > deduct a) then
      { r with sel := Function.update sel a true }
    else r

/-- Queue `k` has a whole request to give, as the output block sees it. -/
def Sched.hasCredit (s : Sched n τ) (k : Fin n) : Bool :=
  decide ((s.inp.queue k).credits > s.deducted k)

/-- **The output block.** The single-packet queue goes first; then the selected queue that still has
    credit; then the first queue that has. -/
def Sched.outEdge (s : Sched n τ) : OutRegs n :=
  let r := { s.out with deduct := s.deducted }
  if s.fifoSingle.tvalid then
    { r with number := BitVec.ofNat 8 n, sel := fun _ => false, selSingle := true }
  else
    let r := { r with selSingle := false }
    match lastFin (fun k => s.out.sel k && s.hasCredit k) with
    | some a =>
      if (s.fifo a).tvalid then
        if s.headEnds a then s.finishRequest a
        else { r with number := BitVec.ofNat 8 a.val, sel := only a }
      else { r with sel := only a }
    | none =>
      match firstFin s.hasCredit with
      | some c => { r with sel := only c }
      | none => { r with sel := fun _ => false }

/-! ## 6. FIFOs, pipeline and one clock edge -/

/-- The FIFOs beats wait in: the single-packet FIFO and the queue FIFOs. -/
inductive Port (n : Nat) where
  | single
  | queue (k : Fin n)
  deriving DecidableEq

/-- What the strobe of a port offers its FIFO. -/
def InRegs.strobe (r : InRegs n τ) : Port n → Option (QBeat τ)
  | .single => if r.tvalidSingle then some r.tdataSingle else none
  | .queue k => if (r.queue k).tvalid then some (r.queue k).tdata else none

def Sched.fifoAt (s : Sched n τ) : Port n → DataFifo (QBeat τ)
  | .single => s.fifoSingle
  | .queue k => s.fifo k

/-- `output_tready[k]` and `output_tready_single_FIFO`. -/
def Sched.popReady (s : Sched n τ) : Port n → Bool
  | .single => s.out.selSingle && decide (s.out.number.toNat = n)
  | .queue k => s.out.sel k && decide (s.out.number.toNat = k.val)

/-- The port `output_queue_number` names. -/
def Sched.selected (s : Sched n τ) : Option (Port n) :=
  if h : s.out.number.toNat < n then some (.queue ⟨s.out.number.toNat, h⟩)
  else if s.out.number.toNat = n then some .single
  else none

/-- The output mux: the beat forwarded to the pipeline at this edge. -/
def Sched.forwarded (s : Sched n τ) : Option (QBeat τ) :=
  match s.selected with
  | some p => (s.fifoAt p).popped (s.popReady p)
  | none => none

/-- The beat that leaves on `tx` at this edge. -/
def Sched.tx (s : Sched n τ) (txTready : Bool) : Option (QBeat τ) := s.fifoOut.popped txTready

/-- The clock edge with `rst` low. -/
def Sched.edge (s : Sched n τ) (rx : Option (RxBeat τ)) (txTready : Bool) : Sched n τ where
  inp := s.inEdge rx
  out := s.outEdge
  fifo := fun k => (s.fifo k).edge (s.inp.strobe (.queue k)) (s.popReady (.queue k))
  fifoSingle := s.fifoSingle.edge (s.inp.strobe .single) (s.popReady .single)
  pipe := s.pipe.shift s.forwarded
  fifoOut := s.fifoOut.edge s.pipe.last txTready

/-- The input pins at one clock edge; `rx` is `rx_tdata` where `rx_tvalid` is high. -/
structure SchedIn (τ : Type) where
  rst : Bool
  rx : Option (RxBeat τ)
  txTready : Bool

/-- **One clock edge of the scheduler.** -/
def Sched.clock [Inhabited τ] (s : Sched n τ) (i : SchedIn τ) : Sched n τ :=
  if i.rst then Sched.reset n τ else s.edge i.rx i.txTready

/-! ## 7. First facts -/

section Edge

variable (s : Sched n τ) (rx : Option (RxBeat τ)) (t : Bool)

@[simp] theorem edge_inp : (s.edge rx t).inp = s.inEdge rx := rfl

@[simp] theorem edge_out : (s.edge rx t).out = s.outEdge := rfl

@[simp] theorem edge_fifo (k : Fin n) :
    (s.edge rx t).fifo k = (s.fifo k).edge (s.inp.strobe (.queue k)) (s.popReady (.queue k)) := rfl

@[simp] theorem edge_fifoSingle :
    (s.edge rx t).fifoSingle = s.fifoSingle.edge (s.inp.strobe .single) (s.popReady .single) := rfl

@[simp] theorem edge_pipe : (s.edge rx t).pipe = s.pipe.shift s.forwarded := rfl

@[simp] theorem edge_fifoOut : (s.edge rx t).fifoOut = s.fifoOut.edge s.pipe.last t := rfl

end Edge

section Cleared

variable (s : Sched n τ) (k : Fin n)

theorem cleared_credits : (s.cleared k).credits =
    if (s.inp.queue k).credits = s.out.deduct k then 0 else (s.inp.queue k).credits := rfl

@[simp] theorem cleared_qmeta : (s.cleared k).qmeta = (s.inp.queue k).qmeta := rfl

@[simp] theorem cleared_counter : (s.cleared k).counter = (s.inp.queue k).counter := rfl

@[simp] theorem cleared_counterInst :
    (s.cleared k).counterInst = (s.inp.queue k).counterInst := rfl

end Cleared

@[simp] theorem fifoAt_edge (s : Sched n τ) (rx : Option (RxBeat τ)) (t : Bool) (p : Port n) :
    (s.edge rx t).fifoAt p = (s.fifoAt p).edge (s.inp.strobe p) (s.popReady p) := by
  cases p <;> rfl

/-- A port whose FIFO is read is the one the mux shows. -/
theorem selected_of_popReady {s : Sched n τ} {p : Port n} (h : s.popReady p = true) :
    s.selected = some p := by
  cases p with
  | single =>
      have hn : s.out.number.toNat = n := by
        simpa using (Bool.and_eq_true_iff.mp h).2
      simp [Sched.selected, hn]
  | queue k =>
      have hk : s.out.number.toNat = k.val := by
        simpa using (Bool.and_eq_true_iff.mp h).2
      simp [Sched.selected, hk]

/-- **What is read is what is forwarded**: at most one FIFO is read at an edge, and its head is the
    beat the mux forwards. -/
theorem forwarded_of_popReady {s : Sched n τ} {p : Port n} (h : s.popReady p = true) :
    s.forwarded = (s.fifoAt p).head? := by
  rw [Sched.forwarded, selected_of_popReady h]
  show (s.fifoAt p).popped (s.popReady p) = _
  rw [h]
  rfl

theorem popped_of_forwarded {s : Sched n τ} {x : QBeat τ} (h : s.forwarded = some x) :
    ∃ p, s.popReady p = true ∧ (s.fifoAt p).head? = some x := by
  unfold Sched.forwarded at h
  cases hp : s.selected with
  | none => rw [hp] at h; cases h
  | some p =>
      rw [hp] at h
      refine ⟨p, ?_⟩
      cases hr : s.popReady p with
      | false => simp [hr] at h
      | true => exact ⟨rfl, by simpa [hr, StreamFifo.popped_eq] using h⟩

/-- Two ports are never read at once. -/
theorem popReady_unique {s : Sched n τ} {p q : Port n} (hp : s.popReady p = true)
    (hq : s.popReady q = true) : p = q :=
  Option.some_injective _ ((selected_of_popReady hp).symm.trans (selected_of_popReady hq))

end Frac.Reassembly
