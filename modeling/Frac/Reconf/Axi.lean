/-
  File:      Frac/Reconf/Axi.lean
  Subject:   The controller as an AXI master, with what is outstanding at its slave.

  * `Bus` -- the transactions the slave has accepted and not answered; `Serves` -- one response per
    transaction, after its acceptance; a reset is one for both sides;
  * `Ctrl.owes` -- what is outstanding, read off the registers; `bus_eq` -- **in every reachable state
    it is what is outstanding**;
  * `axi_discipline` -- **one transaction at a time, addresses and data held until they are taken, and
    every response taken by the transaction it is for**.
-/
import Frac.Reconf.System

namespace Frac.Reconf

open Clocked

variable {slotCount : Nat}

/-! ## 1. The slave's side -/

/-- The addresses and write beats accepted whose response has not been taken. -/
structure Bus where
  writes : List (BitVec 33)
  beats : List (BitVec 256 × BitVec 32)
  reads : List (BitVec 33)
  deriving DecidableEq

def Bus.quiet : Bus := ⟨[], [], []⟩

/-- One edge: the oldest transaction is answered, a new one is accepted. -/
def Bus.step (b : Bus) (s : Ctrl slotCount) (i : In) : Bus where
  writes := (if i.bvalid && s.bready then b.writes.tail else b.writes) ++
    (if s.awvalid && i.awready then [s.awaddr] else [])
  beats := (if i.bvalid && s.bready then b.beats.tail else b.beats) ++
    (if s.wvalid && i.wready then [(s.wdata, s.wstrb)] else [])
  reads := (if i.rvalid && s.rready then b.reads.tail else b.reads) ++
    (if s.arvalid && i.arready then [s.araddr] else [])

/-- The controller and its slave. -/
structure Master (slotCount : Nat) where
  ctrl : Ctrl slotCount
  bus : Bus

def Master.init (slotCount : Nat) : Master slotCount := ⟨Ctrl.reset slotCount, .quiet⟩

def Master.clock (y : Master slotCount) (i : In) : Master slotCount where
  ctrl := y.ctrl.clock i
  bus := if i.rst then .quiet else y.bus.step y.ctrl i

/-- **What the slave promises**: a B only for an accepted AW and W, an R only for an accepted AR. Since
    a response that is taken leaves the bus, there is one for each. -/
def Serves (y : Master slotCount) (i : In) : Prop :=
  (i.bvalid = true → y.bus.writes ≠ [] ∧ y.bus.beats ≠ []) ∧ (i.rvalid = true → y.bus.reads ≠ [])

instance (y : Master slotCount) (i : In) : Decidable (Serves y i) :=
  inferInstanceAs (Decidable ((_ → _ ∧ _) ∧ (_ → _)))

/-! ## 2. The master's side -/

/-- What is outstanding, by the state of the controller. -/
def Ctrl.owes (s : Ctrl slotCount) : Bus :=
  match s.state with
  | .writeData => ⟨[s.awaddr], [], []⟩
  | .writeResp => ⟨[s.awaddr], [(s.wdata, s.wstrb)], []⟩
  | .readData0 | .readData1 | .reconfData => ⟨[], [], [s.araddr]⟩
  | _ => .quiet

/-- The address a read state presents. -/
def Ctrl.readAddr (s : Ctrl slotCount) : BitVec 33 :=
  if s.state = .readAddr1 then s.currentAddr + addrIncr32 else s.currentAddr

/-- The address registers are driven again at every edge, with what they hold. -/
structure Presented (s : Ctrl slotCount) : Prop where
  aw : s.state = .writeAddr → s.awvalid = true →
    s.awaddr = s.currentAddr + (if s.halfSelect then addrIncr32 else 0)
  ar : s.state.addresses = true → s.arvalid = true → s.araddr = s.readAddr
  wlast : s.state = .writeData → s.wlast = true

theorem presented_reset : Presented (Ctrl.reset slotCount) := by
  constructor <;> simp [Ctrl.reset, St.addresses]

theorem presented_edge {s : Ctrl slotCount} (hsg : Signals s) (h : Presented s) (i : In) :
    Presented (s.edge i) := by
  obtain ⟨h1, h2, h3, h4, h5, h6, h7, h8, h9⟩ := hsg
  obtain ⟨haw, har, hwl⟩ := h
  generalize hs' : s.edge i = s'
  have hm := move_edge s i
  rw [hs'] at hm
  cases hm
  case holdAr addr hs _ =>
    rcases hs with ⟨hs, rfl⟩ | ⟨hs, rfl⟩ | ⟨hs, rfl⟩ <;> constructor <;>
      simp [hs, latch, St.addresses, Ctrl.readAddr]
  case takeAr hs _ =>
    rcases hs with ⟨hs, -, rfl⟩ | ⟨hs, -, rfl⟩ | ⟨hs, -, rfl⟩ <;> constructor <;>
      simp [latch, St.addresses]
  case holdR hs _ =>
    rcases hs with hs | hs | hs <;> constructor <;> simp [hs, latch, St.addresses]
  case errR hs _ _ _ => constructor <;> simp [startStatus, St.addresses]
  case holdSend hs _ => rcases hs with hs | hs <;> constructor <;> simp [hs, latch, St.addresses]
  case takeSend hs _ => constructor <;> simp [St.addresses]
  all_goals
    constructor <;>
      simp [*, startStatus, startQueryStatus, startWrite, startRead, startReconf, finishReconf,
        readSendLine, idleRegs, latch, St.addresses]

/-- **An edge changes what is outstanding as it changes the registers.** -/
theorem owes_edge {s : Ctrl slotCount} (hsg : Signals s) (h : Presented s) (i : In) :
    s.owes.step s i = (s.edge i).owes := by
  obtain ⟨h1, h2, h3, h4, h5, h6, h7, h8, h9⟩ := hsg
  obtain ⟨haw, har, hwl⟩ := h
  generalize hs' : s.edge i = s'
  have hm := move_edge s i
  rw [hs'] at hm
  clear hs'
  cases hm
  case takeAw hs hr =>
    obtain ⟨hv, hr⟩ := (Bool.and_eq_true ..).mp hr
    simp [Bus.step, Ctrl.owes, Bus.quiet, hs, h5, h6, h7, h8, hv, hr, haw, St.fetches, St.addresses]
  case holdAr hs hr =>
    rcases hs with ⟨hs, -⟩ | ⟨hs, -⟩ | ⟨hs, -⟩ <;>
      simp [Bus.step, Ctrl.owes, Bus.quiet, latch, hs, h4, h5, h6, h8, hr, St.fetches]
  case takeAr hs hr =>
    obtain ⟨hv, hr⟩ := (Bool.and_eq_true ..).mp hr
    rcases hs with ⟨hs, rfl, rfl⟩ | ⟨hs, rfl, rfl⟩ | ⟨hs, rfl, rfl⟩ <;>
      simp [Bus.step, Ctrl.owes, Bus.quiet, hs, h4, h5, h6, h8, hv, hr, har, St.fetches, St.addresses,
        Ctrl.readAddr]
  case holdR hs hr =>
    rcases hs with hs | hs | hs <;>
      simp [Bus.step, Ctrl.owes, latch, hs, h4, h5, h6, h7, hr, St.addresses]
  case errR hs hr _ _ =>
    rcases hs with hs | hs | hs <;>
      simp [Bus.step, Ctrl.owes, Bus.quiet, startStatus, hs, h4, h5, h6, h7, hr, St.addresses]
  case holdSend hs _ =>
    rcases hs with hs | hs <;>
      simp [Bus.step, Ctrl.owes, Bus.quiet, latch, hs, h4, h5, h6, h7, h8, St.fetches, St.addresses]
  case takeSend hs _ =>
    rcases hs with hs | hs <;>
      simp [Bus.step, Ctrl.owes, Bus.quiet, hs, h4, h5, h6, h7, h8, St.fetches, St.addresses]
  all_goals
    simp_all [Bus.step, Ctrl.owes, Bus.quiet, startStatus, startQueryStatus, startWrite, startRead,
      startReconf, finishReconf, readSendLine, idleRegs, latch, St.fetches, St.addresses]

/-- **What is outstanding is what the registers say**, in every reachable state. -/
theorem bus_eq {ok : Master slotCount → In → Prop} {y : Master slotCount}
    (h : Reachable Master.clock ok (.init slotCount) y) :
    Signals y.ctrl ∧ Presented y.ctrl ∧ y.bus = y.ctrl.owes := by
  refine h.invariant (P := fun y => Signals y.ctrl ∧ Presented y.ctrl ∧ y.bus = y.ctrl.owes)
    ⟨signals_reset, presented_reset, rfl⟩ fun y i ⟨hsg, hp, hb⟩ _ => ⟨signals_clock hsg i, ?_⟩
  cases hr : i.rst with
  | true =>
      have hc : (y.clock i).ctrl = Ctrl.reset slotCount := if_pos hr
      have hbus : (y.clock i).bus = .quiet := if_pos hr
      rw [hc, hbus]
      exact ⟨presented_reset, rfl⟩
  | false =>
      have hc : (y.clock i).ctrl = y.ctrl.edge i := if_neg (Bool.eq_false_iff.mp hr)
      have hbus : (y.clock i).bus = y.bus.step y.ctrl i := if_neg (Bool.eq_false_iff.mp hr)
      rw [hc, hbus, hb]
      exact ⟨presented_edge hsg hp i, owes_edge hsg hp i⟩

/-! ## 3. The discipline -/

/-- **The discipline of a master in one state.** -/
structure Discipline (y : Master slotCount) : Prop where
  /-- one transaction at a time -/
  one : y.bus.writes.length + y.bus.reads.length ≤ 1
  /-- an address is presented only while nothing is outstanding, and only one -/
  address : (y.ctrl.awvalid || y.ctrl.arvalid) = true → y.bus = .quiet
  single : (y.ctrl.awvalid && y.ctrl.arvalid) = false
  /-- a W beat is presented only after its AW was accepted, and is the last -/
  wvalid : y.ctrl.wvalid = true → y.bus = ⟨[y.ctrl.awaddr], [], []⟩ ∧ y.ctrl.wlast = true
  /-- BREADY and RREADY are high only while a transaction of that kind is outstanding -/
  bready : y.ctrl.bready = true →
    y.bus = ⟨[y.ctrl.awaddr], [(y.ctrl.wdata, y.ctrl.wstrb)], []⟩
  rready : y.ctrl.rready = true → y.bus = ⟨[], [], [y.ctrl.araddr]⟩
  /-- nothing is outstanding between commands -/
  idle : y.ctrl.state = .idle → y.bus = .quiet

/-- What is presented and not taken at an edge stays. -/
structure Steady (s : Ctrl slotCount) (i : In) (s' : Ctrl slotCount) : Prop where
  aw : s.awvalid = true → i.awready = false → s'.awvalid = true ∧ s'.awaddr = s.awaddr
  w : s.wvalid = true → i.wready = false →
    s'.wvalid = true ∧ s'.wdata = s.wdata ∧ s'.wstrb = s.wstrb ∧ s'.wlast = s.wlast
  ar : s.arvalid = true → i.arready = false → s'.arvalid = true ∧ s'.araddr = s.araddr

theorem discipline_of_owes {y : Master slotCount} (hsg : Signals y.ctrl) (hp : Presented y.ctrl)
    (hb : y.bus = y.ctrl.owes) : Discipline y := by
  obtain ⟨-, -, -, h4, h5, h6, h7, h8, -⟩ := hsg
  have hwl := hp.wlast
  rw [Ctrl.owes] at hb
  cases hs : y.ctrl.state <;> rw [hs] at hb h4 h5 h6 h7 h8 hwl <;> constructor <;>
    simp_all [Bus.quiet, St.addresses, St.fetches]

theorem steady_edge {s : Ctrl slotCount} (hsg : Signals s) (hp : Presented s) (i : In) :
    Steady s i (s.edge i) where
  aw := by
    intro hv hr
    have hs : s.state = .writeAddr := by
      by_contra hne
      rw [hsg.awvalid hne] at hv
      cases hv
    simp [Ctrl.edge, hs, writeAddrEdge, hr, hp.aw hs hv]
  w := by
    intro hv hr
    have hs : s.state = .writeData := of_decide_eq_true (hsg.wvalid.symm.trans hv)
    simp [Ctrl.edge, hs, writeDataEdge, hr, hv, latch]
  ar := by
    intro hv hr
    have hs : s.state.addresses = true := by
      by_contra hne
      rw [hsg.arvalid (Bool.eq_false_iff.mpr hne)] at hv
      cases hv
    have haddr := hp.ar hs hv
    rw [Ctrl.readAddr] at haddr
    cases hst : s.state
    case readAddr0 | readAddr1 | reconfAddr =>
      rw [hst] at haddr
      simp [Ctrl.edge, hst, readAddr0Edge, readAddr1Edge, reconfAddrEdge, readAddrEdge, hr, haddr]
    all_goals
      rw [hst] at hs
      cases hs

/-- **AXI master discipline.** In every state that is reached against a slave that keeps its promise:
    one transaction at a time, none between commands, whatever ended the last one; at every edge what
    is presented and not taken stays; and a response that is offered is taken at once, by the only
    transaction outstanding. -/
theorem axi_discipline {y : Master slotCount} (h : Reachable Master.clock Serves (.init slotCount) y) :
    Discipline y ∧ ∀ i, i.rst = false → Steady y.ctrl i (y.clock i).ctrl ∧
      (Serves y i →
        (i.bvalid = true → y.ctrl.bready = true ∧
          y.bus = ⟨[y.ctrl.awaddr], [(y.ctrl.wdata, y.ctrl.wstrb)], []⟩) ∧
        (i.rvalid = true → y.ctrl.rready = true ∧ y.bus = ⟨[], [], [y.ctrl.araddr]⟩)) := by
  obtain ⟨hsg, hp, hb⟩ := bus_eq h
  have hd := discipline_of_owes hsg hp hb
  refine ⟨hd, fun i hr => ⟨?_, fun hserve => ⟨fun hv => ?_, fun hv => ?_⟩⟩⟩
  · have hc : (y.clock i).ctrl = y.ctrl.edge i := if_neg (Bool.eq_false_iff.mp hr)
    rw [hc]
    exact steady_edge hsg hp i
  · have hbeats := (hserve.1 hv).2
    have hready : y.ctrl.bready = true := by
      rw [hsg.bready]
      rw [hb, Ctrl.owes] at hbeats
      cases hs : y.ctrl.state <;> rw [hs] at hbeats <;> first
        | rfl
        | exact absurd rfl hbeats
    exact ⟨hready, hd.bready hready⟩
  · have hreads := hserve.2 hv
    have hready : y.ctrl.rready = true := by
      rw [hsg.rready]
      rw [hb, Ctrl.owes] at hreads
      cases hs : y.ctrl.state <;> rw [hs] at hreads <;> first
        | rfl
        | exact absurd rfl hreads
    exact ⟨hready, hd.rready hready⟩

/-- A write of one line, up to the edge at which the slave answers its first beat with an error. -/
def writeEdges : List In :=
  offer (commandLine opWriteHbm 0 0x40 64) ++ offer 7#512 ++
    [In.low, { In.low with awready := true }, In.low, { In.low with wready := true }]

theorem axi_discipline_write :
    (run Master.clock (.init 2) writeEdges).ctrl.bready = true ∧
      (run Master.clock (.init 2) writeEdges).bus.writes = [0x40] := by
  have hr : Reachable Master.clock Serves (.init 2) (run Master.clock (.init 2) writeEdges) :=
    Reachable.of_run writeEdges (by decide +kernel)
  have hb := ((axi_discipline hr).2 { In.low with bvalid := true, bresp := 2 } rfl).2
    (by decide +kernel) |>.1 rfl
  refine ⟨hb.1, ?_⟩
  rw [hb.2]
  decide +kernel

end Frac.Reconf
