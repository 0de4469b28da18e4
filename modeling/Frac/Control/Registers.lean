/-
  File:      Frac/Control/Registers.lean
  Subject:   The control port of the kernel (`user_krnl_control_s_axi.v`): an AXI-Lite slave with one
             machine for writes, one for reads, and the registers behind them. `ACLK_EN` is tied high
             where it is used and left out.

  * `File` -- the registers, with one write and one read at an edge; `Port` -- with the two machines;
  * `stored` -- what a list of writes leaves at an address, and `stored_byte` -- byte by byte **the last
    write that had its strobe set**;
  * `PortTally` -- the port with what has crossed it; `port_clock`, `port_run`;
  * **`control_port`** -- writes are taken one by one with the address before them and acknowledged
    once; a read is answered once, in order, with what the writes before it have left.
-/
import Frac.Lib.Clocked

namespace Frac.Control

open Clocked

/-! ## 1. Addresses -/

def addrApCtrl : BitVec 7 := 0x00
def addrGie : BitVec 7 := 0x04
def addrIer : BitVec 7 := 0x08
def addrIsr : BitVec 7 := 0x0c
def addrRunForCyclesData0 : BitVec 7 := 0x10
def addrRunForCyclesData1 : BitVec 7 := 0x14
def addrAxi00Ptr0Data0 : BitVec 7 := 0x1c
def addrAxi00Ptr0Data1 : BitVec 7 := 0x20
def addrAxi01Ptr0Data0 : BitVec 7 := 0x28
def addrAxi01Ptr0Data1 : BitVec 7 := 0x2c
def addrAxi02Ptr0Data0 : BitVec 7 := 0x34
def addrAxi02Ptr0Data1 : BitVec 7 := 0x38
def addrAxi03Ptr0Data0 : BitVec 7 := 0x40
def addrAxi03Ptr0Data1 : BitVec 7 := 0x44

/-- The data registers, by halves. -/
def dataAddrs : List (BitVec 7) :=
  [addrRunForCyclesData0, addrRunForCyclesData1, addrAxi00Ptr0Data0, addrAxi00Ptr0Data1, addrAxi01Ptr0Data0,
    addrAxi01Ptr0Data1, addrAxi02Ptr0Data0, addrAxi02Ptr0Data1, addrAxi03Ptr0Data0, addrAxi03Ptr0Data1]

/-! ## 2. Registers -/

/-- A write at `w_hs`: `waddr`, `WDATA`, `WSTRB`. -/
structure Write where
  addr : BitVec 7
  data : BitVec 32
  strb : BitVec 4
  deriving DecidableEq

/-- `wmask`. -/
def wmask (strb : BitVec 4) : BitVec 32 :=
  (if strb.getLsbD 3 then BitVec.allOnes 8 else 0) ++ (if strb.getLsbD 2 then BitVec.allOnes 8 else 0) ++
    (if strb.getLsbD 1 then BitVec.allOnes 8 else 0) ++ (if strb.getLsbD 0 then BitVec.allOnes 8 else 0)

/-- `(WDATA & wmask) | (old & ~wmask)`. -/
def Write.merge (w : Write) (old : BitVec 32) : BitVec 32 := (w.data &&& wmask w.strb) ||| (old &&& ~~~wmask w.strb)

/-- A register half at address `a`. -/
def writeHalf (w : Option Write) (a : BitVec 7) (old : BitVec 32) : BitVec 32 :=
  w.elim old fun w => if w.addr = a then w.merge old else old

/-- A register of two halves. -/
def writeData (w : Option Write) (a0 a1 : BitVec 7) (r : BitVec 64) : BitVec 64 :=
  writeHalf w a1 (r.extractLsb' 32 32) ++ writeHalf w a0 (r.extractLsb' 0 32)

/-- Bit `k` of a control register, where byte 0 is written. -/
def writeBit (w : Option Write) (a : BitVec 7) (k : Nat) (old : Bool) : Bool :=
  w.elim old fun w => if w.addr = a && w.strb.getLsbD 0 then w.data.getLsbD k else old

/-- The registers behind the port. -/
structure File where
  intApIdle : Bool
  intApReady : Bool
  intApDone : Bool
  intApStart : Bool
  intAutoRestart : Bool
  intGie : Bool
  intIer : BitVec 2
  intIsr : BitVec 2
  intRunForCycles : BitVec 64
  intAxi00Ptr0 : BitVec 64
  intAxi01Ptr0 : BitVec 64
  intAxi02Ptr0 : BitVec 64
  intAxi03Ptr0 : BitVec 64

/-- What the kernel drives. -/
structure Status where
  apDone : Bool
  apReady : Bool
  apIdle : Bool

namespace File

def reset : File := ⟨false, false, false, false, false, false, 0, 0, 0, 0, 0, 0, 0⟩

/-- `WDATA[0]` is written to `ap_start`. -/
def starts (w : Option Write) : Bool :=
  w.any fun w => decide (w.addr = addrApCtrl) && w.strb.getLsbD 0 && w.data.getLsbD 0

/-- Bit `k` of `int_isr`: set by its event, else toggled by a write. -/
def isrBit (f : File) (w : Option Write) (event : Bool) (k : Nat) : Bool :=
  if f.intIer.getLsbD k && event then true
  else w.elim (f.intIsr.getLsbD k) fun w =>
    if w.addr = addrIsr && w.strb.getLsbD 0 then f.intIsr.getLsbD k != w.data.getLsbD k else f.intIsr.getLsbD k

/-- The registers at one edge, with the write and the read that are accepted at it. -/
def edge (f : File) (w : Option Write) (r : Option (BitVec 7)) (st : Status) : File where
  intApIdle := st.apIdle
  intApReady := st.apReady
  intApDone := if st.apDone then true else if r = some addrApCtrl then false else f.intApDone
  intApStart := if starts w then true else if st.apReady then f.intAutoRestart else f.intApStart
  intAutoRestart := writeBit w addrApCtrl 7 f.intAutoRestart
  intGie := writeBit w addrGie 0 f.intGie
  intIer := BitVec.ofBool (writeBit w addrIer 1 (f.intIer.getLsbD 1)) ++
    BitVec.ofBool (writeBit w addrIer 0 (f.intIer.getLsbD 0))
  intIsr := BitVec.ofBool (f.isrBit w st.apReady 1) ++ BitVec.ofBool (f.isrBit w st.apDone 0)
  intRunForCycles := writeData w addrRunForCyclesData0 addrRunForCyclesData1 f.intRunForCycles
  intAxi00Ptr0 := writeData w addrAxi00Ptr0Data0 addrAxi00Ptr0Data1 f.intAxi00Ptr0
  intAxi01Ptr0 := writeData w addrAxi01Ptr0Data0 addrAxi01Ptr0Data1 f.intAxi01Ptr0
  intAxi02Ptr0 := writeData w addrAxi02Ptr0Data0 addrAxi02Ptr0Data1 f.intAxi02Ptr0
  intAxi03Ptr0 := writeData w addrAxi03Ptr0Data0 addrAxi03Ptr0Data1 f.intAxi03Ptr0

/-- `rdata` at `ADDR_AP_CTRL`. -/
def apCtrl (f : File) : BitVec 32 :=
  (0 : BitVec 24) ++ BitVec.ofBool f.intAutoRestart ++ (0 : BitVec 3) ++ BitVec.ofBool f.intApReady ++
    BitVec.ofBool f.intApIdle ++ BitVec.ofBool f.intApDone ++ BitVec.ofBool f.intApStart

/-- `rdata` after `ar_hs` at an address. -/
def read (f : File) (a : BitVec 7) : BitVec 32 :=
  if a = addrApCtrl then f.apCtrl
  else if a = addrGie then (BitVec.ofBool f.intGie).setWidth 32
  else if a = addrIer then f.intIer.setWidth 32
  else if a = addrIsr then f.intIsr.setWidth 32
  else if a = addrRunForCyclesData0 then f.intRunForCycles.extractLsb' 0 32
  else if a = addrRunForCyclesData1 then f.intRunForCycles.extractLsb' 32 32
  else if a = addrAxi00Ptr0Data0 then f.intAxi00Ptr0.extractLsb' 0 32
  else if a = addrAxi00Ptr0Data1 then f.intAxi00Ptr0.extractLsb' 32 32
  else if a = addrAxi01Ptr0Data0 then f.intAxi01Ptr0.extractLsb' 0 32
  else if a = addrAxi01Ptr0Data1 then f.intAxi01Ptr0.extractLsb' 32 32
  else if a = addrAxi02Ptr0Data0 then f.intAxi02Ptr0.extractLsb' 0 32
  else if a = addrAxi02Ptr0Data1 then f.intAxi02Ptr0.extractLsb' 32 32
  else if a = addrAxi03Ptr0Data0 then f.intAxi03Ptr0.extractLsb' 0 32
  else if a = addrAxi03Ptr0Data1 then f.intAxi03Ptr0.extractLsb' 32 32
  else 0

end File

/-! ## 3. The port -/

inductive WState where
  | wridle | wrdata | wrresp | wrreset
  deriving DecidableEq

inductive RState where
  | rdidle | rddata | rdreset
  deriving DecidableEq

structure Port where
  wstate : WState
  waddr : BitVec 7
  rstate : RState
  rdata : BitVec 32
  file : File

/-- The input pins at one clock edge; an address or data is `none` where its valid bit is low. -/
structure PortIn where
  areset : Bool
  awaddr : Option (BitVec 12)
  w : Option (BitVec 32 × BitVec 4)
  bready : Bool
  araddr : Option (BitVec 12)
  rready : Bool

namespace Port

variable (s : Port) (i : PortIn)

/-- `aw_hs`, `w_hs`, `ar_hs`, with what they take. -/
def awHs : Option (BitVec 7) := if s.wstate = .wridle then i.awaddr.map (·.setWidth 7) else none
def wHs : Option Write := if s.wstate = .wrdata then i.w.map fun d => ⟨s.waddr, d.1, d.2⟩ else none
def arHs : Option (BitVec 7) := if s.rstate = .rdidle then i.araddr.map (·.setWidth 7) else none

/-- The handshakes of the two response channels. -/
def bHs : Bool := decide (s.wstate = .wrresp) && i.bready
def rHs : Option (BitVec 32) := if s.rstate = .rddata && i.rready then some s.rdata else none

def wnext : WState :=
  match s.wstate with
  | .wridle => if i.awaddr.isSome then .wrdata else .wridle
  | .wrdata => if i.w.isSome then .wrresp else .wrdata
  | .wrresp => if i.bready then .wridle else .wrresp
  | .wrreset => .wridle

def rnext : RState :=
  match s.rstate with
  | .rdidle => if i.araddr.isSome then .rddata else .rdidle
  | .rddata => if i.rready then .rdidle else .rddata
  | .rdreset => .rdidle

/-- **One clock edge**; `waddr` and `rdata` have no reset. -/
def clock (st : Status) : Port where
  wstate := if i.areset then .wrreset else s.wnext i
  waddr := (s.awHs i).getD s.waddr
  rstate := if i.areset then .rdreset else s.rnext i
  rdata := (s.arHs i).elim s.rdata s.file.read
  file := if i.areset then .reset else s.file.edge (s.wHs i) (s.arHs i) st

/-- After a reset. -/
def reset (waddr : BitVec 7) (rdata : BitVec 32) : Port := ⟨.wrreset, waddr, .rdreset, rdata, .reset⟩

end Port

/-! ## 4. What writes leave -/

/-- What a list of writes leaves at an address that was zero. -/
def stored (ws : List Write) (a : BitVec 7) : BitVec 32 := ws.foldl (fun v w => writeHalf (some w) a v) 0

@[simp] theorem stored_nil (a : BitVec 7) : stored [] a = 0 := rfl

theorem stored_append (ws : List Write) (w : Option Write) (a : BitVec 7) :
    stored (ws ++ w.toList) a = writeHalf w a (stored ws a) := by
  cases w with
  | none => simp [writeHalf]
  | some w => simp [stored]

/-- The last write to an address that had strobe `j` set: its byte `j`. -/
def lastByte (ws : List Write) (a : BitVec 7) (j : Nat) : BitVec 8 :=
  ((ws.reverse.find? fun w => decide (w.addr = a) && w.strb.getLsbD j).map
    (·.data.extractLsb' (8 * j) 8)).getD 0

theorem wmask_bit (strb : BitVec 4) {k : Nat} (hk : k < 32) : (wmask strb).getLsbD k = strb.getLsbD (k / 8) := by
  have hall : ∀ (strb : BitVec 4) (k : Fin 32), (wmask strb).getLsbD k.val = strb.getLsbD (k.val / 8) := by
    decide +kernel
  exact hall strb ⟨k, hk⟩

theorem merge_byte (w : Write) (old : BitVec 32) {j : Nat} (hj : j < 4) :
    (w.merge old).extractLsb' (8 * j) 8 =
      if w.strb.getLsbD j then w.data.extractLsb' (8 * j) 8 else old.extractLsb' (8 * j) 8 := by
  refine BitVec.eq_of_getLsbD_eq fun k hk => ?_
  have hdiv : (8 * j + k) / 8 = j := by omega
  have hbit : (w.merge old).getLsbD (8 * j + k) =
      if w.strb.getLsbD j then w.data.getLsbD (8 * j + k) else old.getLsbD (8 * j + k) := by
    unfold Write.merge
    rw [BitVec.getLsbD_or, BitVec.getLsbD_and, BitVec.getLsbD_and, BitVec.getLsbD_not,
      wmask_bit w.strb (by omega), hdiv, decide_eq_true (by omega : 8 * j + k < 32)]
    cases w.strb.getLsbD j <;> simp
  rw [BitVec.getLsbD_extractLsb', hbit, decide_eq_true hk, Bool.true_and]
  split <;> rw [BitVec.getLsbD_extractLsb', decide_eq_true hk, Bool.true_and]

/-- **Byte by byte** what is stored is what was written last. -/
theorem stored_byte (ws : List Write) (a : BitVec 7) {j : Nat} (hj : j < 4) :
    (stored ws a).extractLsb' (8 * j) 8 = lastByte ws a j := by
  induction ws using List.reverseRecOn with
  | nil =>
      refine BitVec.eq_of_getLsbD_eq fun k _ => ?_
      simp [lastByte]
  | append_singleton ws w ih =>
      have hstep := stored_append ws (some w) a
      rw [Option.toList_some] at hstep
      rw [hstep, lastByte, List.reverse_append, List.reverse_singleton, List.singleton_append, List.find?_cons,
        writeHalf, Option.elim_some]
      by_cases ha : w.addr = a
      · rw [if_pos ha, merge_byte w _ hj, decide_eq_true ha, Bool.true_and]
        cases w.strb.getLsbD j with
        | true => rfl
        | false => exact ih
      · rw [if_neg ha, decide_eq_false ha, Bool.false_and]
        exact ih

theorem writeData_low (w : Option Write) (a0 a1 : BitVec 7) (r : BitVec 64) :
    (writeData w a0 a1 r).extractLsb' 0 32 = writeHalf w a0 (r.extractLsb' 0 32) :=
  BitVec.extractLsb'_append_eq_right

theorem writeData_high (w : Option Write) (a0 a1 : BitVec 7) (r : BitVec 64) :
    (writeData w a0 a1 r).extractLsb' 32 32 = writeHalf w a1 (r.extractLsb' 32 32) :=
  BitVec.extractLsb'_append_eq_left

/-- **A data register at one edge**: the write to its address, and nothing else, changes it. -/
theorem read_edge (f : File) (w : Option Write) (r : Option (BitVec 7)) (st : Status) {a : BitVec 7}
    (ha : a ∈ dataAddrs) : (f.edge w r st).read a = writeHalf w a (f.read a) := by
  simp only [dataAddrs, List.mem_cons, List.not_mem_nil, or_false] at ha
  rcases ha with rfl | rfl | rfl | rfl | rfl | rfl | rfl | rfl | rfl | rfl
  · exact writeData_low w _ addrRunForCyclesData1 f.intRunForCycles
  · exact writeData_high w addrRunForCyclesData0 _ f.intRunForCycles
  · exact writeData_low w _ addrAxi00Ptr0Data1 f.intAxi00Ptr0
  · exact writeData_high w addrAxi00Ptr0Data0 _ f.intAxi00Ptr0
  · exact writeData_low w _ addrAxi01Ptr0Data1 f.intAxi01Ptr0
  · exact writeData_high w addrAxi01Ptr0Data0 _ f.intAxi01Ptr0
  · exact writeData_low w _ addrAxi02Ptr0Data1 f.intAxi02Ptr0
  · exact writeData_high w addrAxi02Ptr0Data0 _ f.intAxi02Ptr0
  · exact writeData_low w _ addrAxi03Ptr0Data1 f.intAxi03Ptr0
  · exact writeData_high w addrAxi03Ptr0Data0 _ f.intAxi03Ptr0

theorem read_reset {a : BitVec 7} (ha : a ∈ dataAddrs) : File.reset.read a = 0 := by
  revert a
  decide

/-! ## 5. Runs -/

/-- The port with what has crossed it since the last reset: the addresses and the writes accepted, the
    write responses taken, what each accepted read has to return, and what was returned. -/
structure PortTally where
  port : Port
  addrs : List (BitVec 7)
  writes : List Write
  acks : Nat
  asked : List (BitVec 32)
  answered : List (BitVec 32)

namespace PortTally

/-- What a read has to return: a data register what the writes before it have left. -/
def due (t : PortTally) (a : BitVec 7) : BitVec 32 :=
  if a ∈ dataAddrs then stored t.writes a else t.port.file.read a

def init (p : Port) : PortTally := ⟨p, [], [], 0, [], []⟩

def clock (t : PortTally) (i : PortIn × Status) : PortTally :=
  if i.1.areset then init (t.port.clock i.1 i.2)
  else
    { port := t.port.clock i.1 i.2
      addrs := t.addrs ++ (t.port.awHs i.1).toList
      writes := t.writes ++ (t.port.wHs i.1).toList
      acks := t.acks + if t.port.bHs i.1 then 1 else 0
      asked := t.asked ++ ((t.port.arHs i.1).map t.due).toList
      answered := t.answered ++ (t.port.rHs i.1).toList }

/-- **What is under way**: an address without its data, a write without its response, a read without its
    data; and the data registers hold what was written. -/
structure Serves (t : PortTally) : Prop where
  paired : t.writes.map (·.addr) ++ (if t.port.wstate = .wrdata then [t.port.waddr] else []) = t.addrs
  acked : t.acks + (if t.port.wstate = .wrresp then 1 else 0) = t.writes.length
  answered : t.answered ++ (if t.port.rstate = .rddata then [t.port.rdata] else []) = t.asked
  held : ∀ a ∈ dataAddrs, t.port.file.read a = stored t.writes a

theorem serves_init (w : BitVec 7) (r : BitVec 32) : (init (.reset w r)).Serves :=
  ⟨rfl, rfl, rfl, fun _ ha => read_reset ha⟩

theorem due_eq {t : PortTally} (h : t.Serves) (a : BitVec 7) : t.due a = t.port.file.read a := by
  unfold due
  split
  · next ha => exact (h.held a ha).symm
  · rfl

theorem serves_clock {t : PortTally} (h : t.Serves) (i : PortIn × Status) : (t.clock i).Serves := by
  unfold clock
  cases hrst : i.1.areset with
  | true =>
      refine ⟨?_, ?_, ?_, fun a ha => ?_⟩
      · simp [init, Port.clock, hrst]
      · simp [init, Port.clock, hrst]
      · simp [init, Port.clock, hrst]
      · show (if i.1.areset then File.reset else _).read a = 0
        rw [hrst]
        exact read_reset ha
  | false =>
      refine ⟨?_, ?_, ?_, fun a ha => ?_⟩
      · have hp := h.paired
        cases hw : t.port.wstate <;> cases ha : i.1.awaddr <;> cases hd : i.1.w <;> cases hb : i.1.bready <;>
          simp_all [Port.clock, Port.awHs, Port.wHs, Port.wnext]
      · have hk := h.acked
        cases hw : t.port.wstate <;> cases ha : i.1.awaddr <;> cases hd : i.1.w <;> cases hb : i.1.bready <;>
          simp_all [Port.clock, Port.bHs, Port.wHs, Port.wnext]
      · have hr := h.answered
        have hdue := due_eq h
        cases hs : t.port.rstate <;> cases ha : i.1.araddr <;> cases hb : i.1.rready <;>
          simp_all [Port.clock, Port.arHs, Port.rHs, Port.rnext]
      · show (if i.1.areset then File.reset else t.port.file.edge (t.port.wHs i.1) (t.port.arHs i.1) i.2).read a =
          stored (t.writes ++ (t.port.wHs i.1).toList) a
        rw [hrst, if_neg Bool.false_ne_true, read_edge _ _ _ _ ha, stored_append, h.held a ha]

theorem serves_run (w : BitVec 7) (r : BitVec 32) (is : List (PortIn × Status)) :
    (run clock (init (.reset w r)) is).Serves :=
  run_all (P := Serves) (fun _ i h => serves_clock h i) (serves_init w r) is

end PortTally

/-- **The control port is a register file**, in every run, whatever the host and the kernel drive and
    with resets at any edge. Since the last reset the data taken go to the addresses taken, one for one in
    order, but for an address that waits for its data; each write is acknowledged once, but for one whose
    response waits; each read is answered once, in order, with what it had to return when its address was
    taken, but for one whose data wait; and a data register holds, byte by byte, what was written last. -/
theorem control_port (w : BitVec 7) (r : BitVec 32) (is : List (PortIn × Status)) :
    let t := run PortTally.clock (.init (.reset w r)) is
    t.writes.map (·.addr) ++ (if t.port.wstate = .wrdata then [t.port.waddr] else []) = t.addrs ∧
      t.acks + (if t.port.wstate = .wrresp then 1 else 0) = t.writes.length ∧
      t.answered ++ (if t.port.rstate = .rddata then [t.port.rdata] else []) = t.asked ∧
      ∀ a ∈ dataAddrs, ∀ j < 4, (t.port.file.read a).extractLsb' (8 * j) 8 = lastByte t.writes a j := by
  intro t
  have h : t.Serves := PortTally.serves_run w r is
  refine ⟨h.paired, h.acked, h.answered, fun a ha j hj => ?_⟩
  rw [h.held a ha]
  exact stored_byte t.writes a hj

end Frac.Control
