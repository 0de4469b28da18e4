/-
  File:      Frac/PktLogic/Branch.lean
  Subject:   The reconfiguration branch of `pkt_logic.v`: how the dispatcher's beats of workload
             `0x00ab` become lines of `reconfctrl`, and its responses beats of the output switch.

  The branch keeps three registers. `reconf_seen_header` is set by the first line of a packet and
  cleared by its last; `reconf_drain_packet` is set by a response that finds lines of its packet
  left; `reconf_tx_meta` is `{64, session}` of the last header. The header line is taken when the
  controller is idle, and goes nowhere. Here `reconfctrl` comes with the memory behind its AXI
  master and the history of its command (`Sys`); the PRDONE, PRERROR and AVAIL pins are those after
  the ten registers of `pkt_logic.v`.

  * `Kernel.clock` -- one clock edge of dispatcher, scheduler, branch and controller;
  * `Feed` -- the kernel fed with lines, and what has crossed its ports.
-/
import Frac.Reassembly.Backpressure
import Frac.Reconf.Progress

namespace Frac.PktLogic

open Clocked Reassembly Reconf

variable {n slotCount : Nat}

/-! ## 1. Registers -/

/-- `{length, session}`. -/
structure TxMeta where
  length : BitVec 16
  session : BitVec 16
  deriving DecidableEq

/-- The registers of the reconfiguration branch. -/
structure Flags where
  seenHeader : Bool
  drainPacket : Bool
  txMeta : TxMeta

def Flags.reset : Flags := ⟨false, false, ⟨0, 0⟩⟩

variable [FifoKind]

structure Kernel (n slotCount : Nat) where
  front : Front n Unit
  sys : Sys slotCount
  flags : Flags

def Kernel.reset (n slotCount : Nat) (mem : Mem 33) : Kernel n slotCount :=
  ⟨Front.reset n Unit, Sys.init slotCount mem, .reset⟩

/-- The input pins at one clock edge: a line for the dispatcher, the slots' readiness, and the pins of
    the controller that the branch does not drive. -/
structure KernelIn where
  rst : Bool
  rx : Option (DispLine Unit)
  txTready : Bool
  pins : In

/-! ## 2. The branch -/

/-- `dispatcher_tdata`, where `dispatcher_tvalid` is high. -/
def Kernel.head (k : Kernel n slotCount) : Option (RxBeat Unit) := k.front.disp.fifo.head?

/-- `dispatcher_reconf_selected`. -/
def Kernel.reconfSelected (k : Kernel n slotCount) : Bool :=
  k.head.any fun b => decide (b.workload = reconfApp)

def Kernel.headerLine (k : Kernel n slotCount) : Bool := k.reconfSelected && !k.flags.seenHeader
def Kernel.payloadLine (k : Kernel n slotCount) : Bool := k.reconfSelected && k.flags.seenHeader
def Kernel.forwardLine (k : Kernel n slotCount) : Bool := k.payloadLine && !k.flags.drainPacket

/-- `dispatcher_tready` for a beat of the controller. -/
def Kernel.reconfReady (k : Kernel n slotCount) : Bool :=
  if k.headerLine then decide (k.sys.ctrl.state = .idle)
  else if k.flags.drainPacket then true
  else k.sys.ctrl.sAxisTready

/-- The pins of `reconfctrl`. -/
def Kernel.ctrlIn (k : Kernel n slotCount) (i : KernelIn) : In :=
  { i.pins with
    rst := i.rst
    sAxisTvalid := k.forwardLine
    sAxisTdata := (k.head.map (·.payload)).getD 0 }

/-- The clocked block of the branch, with `rst` low. -/
def Kernel.flagsNext (k : Kernel n slotCount) (i : KernelIn) : Flags :=
  if k.headerLine && k.reconfReady then
    { txMeta := ⟨64, (k.head.map (·.connid)).getD 0⟩
      seenHeader := !k.head.any (·.tlast)
      drainPacket := false }
  else if k.payloadLine && k.reconfReady && k.head.any (·.tlast) then
    { k.flags with seenHeader := false, drainPacket := false }
  else if k.sys.ctrl.mAxisTvalid && i.pins.mAxisTready && k.sys.ctrl.mAxisTlast &&
      k.flags.seenHeader then
    { k.flags with drainPacket := true }
  else k.flags

/-- The clock edge with `rst` low. -/
def Kernel.edge (k : Kernel n slotCount) (i : KernelIn) : Kernel n slotCount where
  front := k.front.edge ⟨false, i.rx, i.txTready, k.reconfReady⟩
  sys := k.sys.clock (k.ctrlIn i)
  flags := k.flagsNext i

/-- **One clock edge of `pkt_logic`**, the slots apart. -/
def Kernel.clock (k : Kernel n slotCount) (i : KernelIn) : Kernel n slotCount :=
  if i.rst then ⟨Front.reset n Unit, k.sys.clock (k.ctrlIn i), .reset⟩ else k.edge i

/-! ## 3. What crosses the ports -/

/-- The line handshaken into `reconfctrl` at this edge. -/
def Kernel.lineTaken (k : Kernel n slotCount) : List (BitVec 512) :=
  if k.forwardLine && k.sys.ctrl.sAxisTready then [(k.head.map (·.payload)).getD 0] else []

/-- The beat handshaken on the controller port of the output switch at this edge. -/
def Kernel.answerTaken (k : Kernel n slotCount) (i : KernelIn) : List (TxMeta × Resp) :=
  (responseTaken k.sys.ctrl (k.ctrlIn i)).map fun r => (k.flags.txMeta, r)

/-- The kernel, the lines still to arrive, the beats the dispatcher has handed over, the lines the
    controller has taken, and the beats on the controller port of the switch. -/
structure Feed (n slotCount : Nat) where
  kernel : Kernel n slotCount
  todo : List (DispLine Unit)
  handed : List (RxBeat Unit)
  accepted : List (BitVec 512)
  answered : List (TxMeta × Resp)

def Feed.init (n slotCount : Nat) (mem : Mem 33) (lines : List (DispLine Unit)) :
    Feed n slotCount :=
  ⟨.reset n slotCount mem, lines, [], [], []⟩

/-- One clock edge's inputs: the next line may arrive. -/
structure FeedIn where
  send : Bool
  txTready : Bool
  pins : In

/-- The line that arrives. -/
def Feed.rx (y : Feed n slotCount) (i : FeedIn) : Option (DispLine Unit) :=
  if i.send then y.todo.head? else none

/-- The pins of the kernel. -/
def Feed.kernelIn (y : Feed n slotCount) (i : FeedIn) : KernelIn := ⟨false, y.rx i, i.txTready, i.pins⟩

def Feed.clock (y : Feed n slotCount) (i : FeedIn) : Feed n slotCount where
  kernel := y.kernel.edge (y.kernelIn i)
  todo := if i.send then y.todo.tail else y.todo
  handed := y.handed ++ (y.kernel.front.handed y.kernel.reconfReady).toList
  accepted := y.accepted ++ y.kernel.lineTaken
  answered := y.answered ++ y.kernel.answerTaken (y.kernelIn i)

/-- The dispatcher's FIFO does not overflow at this edge. -/
def Feed.Fits (y : Feed n slotCount) : Prop :=
  y.kernel.front.disp.offered.isSome = true → y.kernel.front.disp.fifo.tready = true

instance (y : Feed n slotCount) : Decidable y.Fits := inferInstanceAs (Decidable (_ → _))

theorem rx_todo (y : Feed n slotCount) (i : FeedIn) :
    (y.rx i).toList ++ (y.clock i).todo = y.todo := by
  show (if i.send then y.todo.head? else none).toList ++ (if i.send then y.todo.tail else y.todo) = _
  cases i.send with
  | false => rfl
  | true => cases y.todo <;> rfl

/-! ## 4. First facts -/

section Lines

variable {k : Kernel n slotCount} {b : RxBeat Unit}

theorem reconfSelected_none (h : k.head = none) : k.reconfSelected = false := by
  rw [Kernel.reconfSelected, h]
  rfl

theorem reconfSelected_some (h : k.head = some b) :
    k.reconfSelected = decide (b.workload = reconfApp) := by
  rw [Kernel.reconfSelected, h]
  rfl

/-- A controller beat is handed over when the branch is ready for it. -/
theorem handed_selected (h : k.head = some b) (hw : b.workload = reconfApp) :
    k.front.handed k.reconfReady = if k.reconfReady then some b else none := by
  have hany : (k.front.disp.fifo.head?.any fun b => decide (b.workload = reconfApp)) = true := by
    rw [show k.front.disp.fifo.head? = some b from h]
    exact decide_eq_true hw
  rw [Front.handed, Front.dispReady, hany, if_pos rfl]
  cases k.reconfReady with
  | false => rfl
  | true => exact h

theorem handed_none (h : k.head = none) : k.front.handed k.reconfReady = none := by
  have hnil : k.front.disp.fifo.head? = none := h
  rw [Front.handed, StreamFifo.popped_eq, hnil, ite_self]

/-- What is handed over is the head. -/
theorem handed_head (h : k.front.handed k.reconfReady = some b) : k.head = some b := by
  rw [Front.handed, StreamFifo.popped_eq] at h
  split at h
  · exact h
  · cases h

end Lines

/-- The controller inside the kernel makes its own edges. -/
theorem ctrl_edge (k : Kernel n slotCount) {i : KernelIn} (hrst : i.rst = false) :
    (k.edge i).sys.ctrl = k.sys.ctrl.edge (k.ctrlIn i) := by
  show k.sys.ctrl.clock (k.ctrlIn i) = _
  rw [Ctrl.clock, show (k.ctrlIn i).rst = false from hrst]
  rfl

end Frac.PktLogic
