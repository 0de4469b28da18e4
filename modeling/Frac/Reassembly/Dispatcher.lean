/-
  File:      Frac/Reassembly/Dispatcher.lean
  Subject:   The dispatcher (`dispatcher.v`), which recognises request headers and labels every
             line with a workload and a size, and the dispatcher with the scheduler behind it as
             `pkt_logic.v` wires them.

  The dispatcher keeps one `expecting_header`, one byte count and one label for all connections.
  It is always ready, and writes its FIFO without looking at the FIFO's `tready`. Not here, because
  nothing reads it: `meta_data`, and the bits of `rx_tdata` above 544.
-/
import Frac.Reassembly.Scheduler

namespace Frac.Reassembly

variable {n : Nat} {τ : Type}

/-! ## 1. Lines -/

/-- One line on dispatcher `rx`, by field: `{length, connID}`, `tlast`, 64 bytes. -/
structure DispLine (τ : Type) where
  length : BitVec 16
  connid : BitVec 16
  tlast : Bool
  payload : BitVec 512
  tag : τ

/-- The fields of a request header. -/
def DispLine.requestFirst (l : DispLine τ) : Bool := l.payload.getLsbD 480
def DispLine.requestLast (l : DispLine τ) : Bool := l.payload.getLsbD 481
def DispLine.headerWorkload (l : DispLine τ) : BitVec 16 := l.payload.extractLsb' 496 16
def DispLine.headerPacketSize (l : DispLine τ) : BitVec 32 := l.payload.extractLsb' 448 32

/-- The fields of a header fill a line. -/
theorem header_width : 16 + 16 + 32 + 448 = 512 := rfl

/-- `RECONF_APP`: the workload that goes to the reconfiguration controller. -/
def reconfApp : BitVec 16 := 0x00ab

/-- `header_request_bytes`. -/
def DispLine.headerRequestBytes (l : DispLine τ) : BitVec 32 :=
  if l.headerWorkload = reconfApp then l.headerPacketSize + 64 else l.headerPacketSize

/-! ## 2. The dispatcher -/

variable [FifoKind]

structure Disp (τ : Type) where
  workloadSelection : BitVec 16
  packetSize : BitVec 32
  expectingHeader : Bool
  requestBytesRemaining : BitVec 32
  /-- `rx_tdata_combined`; the scheduler's wider port extends it by a zero `dstPort` -/
  combined : RxBeat τ
  combinedValid : Bool
  fifo : DataFifo (RxBeat τ)

def Disp.reset (τ : Type) [Inhabited τ] : Disp τ where
  workloadSelection := 0
  packetSize := 0
  expectingHeader := true
  requestBytesRemaining := 0
  combined := ⟨0, 0, 0, 0, 0, false, 0, default⟩
  combinedValid := false
  fifo := .empty

/-- `config_header_line`: the line is taken for a header. -/
def Disp.configHeader (d : Disp τ) (l : DispLine τ) : Bool := d.expectingHeader && l.requestFirst

/-- `active_request_bytes`. -/
def Disp.activeBytes (d : Disp τ) (l : DispLine τ) : BitVec 32 :=
  if d.configHeader l then l.headerRequestBytes else d.requestBytesRemaining

/-- The label a line leaves with: its own where it is taken for a header. -/
def Disp.label (d : Disp τ) (l : DispLine τ) : BitVec 32 × BitVec 16 :=
  if d.configHeader l then (l.headerPacketSize, l.headerWorkload)
  else (d.packetSize, d.workloadSelection)

/-- `rx_tdata_combined` for a line. -/
def Disp.combine (d : Disp τ) (l : DispLine τ) : RxBeat τ :=
  ⟨0, (d.label l).1, (d.label l).2, l.length, l.connid, l.tlast, l.payload, l.tag⟩

/-- `expecting_header` and `request_bytes_remaining` after a line. -/
def Disp.track (d : Disp τ) (l : DispLine τ) : Bool × BitVec 32 :=
  if l.tlast then
    if (d.configHeader l && l.requestLast) || decide (d.activeBytes l ≤ l.length.setWidth 32) then
      (true, 0)
    else (false, d.activeBytes l - l.length.setWidth 32)
  else if d.configHeader l then (false, d.activeBytes l)
  else (d.expectingHeader, d.requestBytesRemaining)

/-- What the dispatcher offers its FIFO. -/
def Disp.offered (d : Disp τ) : Option (RxBeat τ) := if d.combinedValid then some d.combined else none

/-- The clock edge with `rst` low. -/
def Disp.edge (d : Disp τ) (rx : Option (DispLine τ)) (txTready : Bool) : Disp τ :=
  let d' := { d with combinedValid := rx.isSome, fifo := d.fifo.edge d.offered txTready }
  match rx with
  | none => d'
  | some l =>
    { d' with
      packetSize := (d.label l).1
      workloadSelection := (d.label l).2
      combined := d.combine l
      expectingHeader := (d.track l).1
      requestBytesRemaining := (d.track l).2 }

/-- The beats between the dispatcher's input and its output, oldest first. -/
def Disp.inflight (d : Disp τ) : List (RxBeat τ) := d.fifo.items ++ d.offered.toList

theorem inflight_edge (d : Disp τ) (rx : Option (DispLine τ)) (ready : Bool) :
    (d.edge rx ready).inflight =
      (d.fifo.edge d.offered ready).items ++ (rx.map d.combine).toList := by
  cases rx <;> rfl

theorem fifo_edge (d : Disp τ) (rx : Option (DispLine τ)) (ready : Bool) :
    (d.edge rx ready).fifo = d.fifo.edge d.offered ready := by
  cases rx <;> rfl

/-! ## 3. Dispatcher and scheduler -/

structure Front (n : Nat) (τ : Type) where
  disp : Disp τ
  sched : Sched n τ

def Front.reset (n : Nat) (τ : Type) [Inhabited τ] : Front n τ := ⟨Disp.reset τ, Sched.reset n τ⟩

/-- The input pins at one clock edge. `reconfReady` is the readiness of the reconfiguration branch
    of `pkt_logic`. -/
structure FrontIn (τ : Type) where
  rst : Bool
  rx : Option (DispLine τ)
  txTready : Bool
  reconfReady : Bool

/-- The scheduler's `rx`: the dispatcher's head unless it is for the reconfiguration controller. -/
def Front.schedRx (f : Front n τ) : Option (RxBeat τ) :=
  f.disp.fifo.head?.filter fun b => decide (b.workload ≠ reconfApp)

/-- `dispatcher_tready`. -/
def Front.dispReady (f : Front n τ) (reconfReady : Bool) : Bool :=
  if f.disp.fifo.head?.any (fun b => decide (b.workload = reconfApp)) then reconfReady
  else f.sched.inp.rxTready

def Front.edge (f : Front n τ) (i : FrontIn τ) : Front n τ where
  disp := f.disp.edge i.rx (f.dispReady i.reconfReady)
  sched := f.sched.edge f.schedRx i.txTready

/-- **One clock edge of dispatcher and scheduler.** -/
def Front.clock [Inhabited τ] (f : Front n τ) (i : FrontIn τ) : Front n τ :=
  if i.rst then Front.reset n τ else f.edge i

end Frac.Reassembly
