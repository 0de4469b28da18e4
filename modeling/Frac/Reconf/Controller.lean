/-
  File:      Frac/Reconf/Controller.lean
  Subject:   The reconfiguration controller (`reconfctrl.v`): its registers, its functions and
             tasks, and one clock edge of its state machine.

  The source assigns every register with `<=`: all right-hand sides read the registers as they
  were before the edge, and of two assignments to one register the later one wins. An edge is
  therefore written here as a function of the pre-edge registers `s` and the inputs `i` that
  updates a record `r` in source order; `r` is only ever written, never read.

  Widths are the integrated ones (`ADDR_WIDTH` 33, `AXI_DATA_WIDTH` 256, `AXIS_DATA_WIDTH` 512,
  `ICAP_DATA_WIDTH` 32), which the source itself fixes in its slices; `SLOT_COUNT` stays a
  parameter. Not here, because no statement of the source reads them: `s_axis_tkeep`,
  `s_axis_tlast`, `m_axi_bid`, `m_axi_rid`, `m_axi_rdata_parity`; and the constant outputs
  (`m_axi_awlen` and its like).
-/
import Frac.Lib.ByteMem

namespace Frac.Reconf

/-! ## 1. Constants -/

/-- `OP_*`: the command opcodes. -/
def opWriteHbm : BitVec 8 := 1
def opReadHbm : BitVec 8 := 2
def opReconfIcap : BitVec 8 := 3
def opQueryStatus : BitVec 8 := 4

/-- `ERR_*`: the status codes a command is answered with. -/
inductive Err where
  | ok | opcode | align | size | addr | axiBresp | axiRresp | rlast | slot | icap
  deriving DecidableEq, Repr

/-- The byte a status code is sent as. -/
def Err.code : Err → BitVec 8
  | .ok => 0
  | .opcode => 1
  | .align => 2
  | .size => 3
  | .addr => 4
  | .axiBresp => 5
  | .axiRresp => 6
  | .rlast => 7
  | .slot => 8
  | .icap => 9

/-- `STATE_*`. `other` is the one encoding of the 4-bit `state_reg` the source does not name
    (its `default` branch). -/
inductive St where
  | idle
  | writeWaitData | writeAddr | writeData | writeResp
  | readAddr0 | readData0 | readAddr1 | readData1 | readSend
  | reconfAddr | reconfData | reconfStream | reconfWaitDone
  | sendStatus
  | other
  deriving DecidableEq, Repr

/-- `ADDR_INCR_32`. -/
def addrIncr32 : BitVec 33 := 32

/-! ## 2. Inputs and registers -/

/-- The input pins sampled at one clock edge. -/
structure In where
  rst : Bool
  sAxisTvalid : Bool
  sAxisTdata : BitVec 512
  mAxisTready : Bool
  icapTready : Bool
  icapPrDone : Bool
  icapPrErr : Bool
  icapAvail : Bool
  awready : Bool
  wready : Bool
  bresp : BitVec 2
  bvalid : Bool
  arready : Bool
  rdata : BitVec 256
  rresp : BitVec 2
  rlast : Bool
  rvalid : Bool

/-- The registers of the controller, registered outputs included. -/
structure Ctrl (slotCount : Nat) where
  state : St
  sAxisTready : Bool
  mAxisTvalid : Bool
  mAxisTdata : BitVec 512
  mAxisTkeep : BitVec 64
  mAxisTlast : Bool
  icapTvalid : Bool
  icapTdata : BitVec 32
  icapTlast : Bool
  slotDecouple : Fin slotCount → Bool
  awaddr : BitVec 33
  awvalid : Bool
  wdata : BitVec 256
  wstrb : BitVec 32
  wlast : Bool
  wvalid : Bool
  bready : Bool
  araddr : BitVec 33
  arvalid : Bool
  rready : Bool
  currentAddr : BitVec 33
  remainingBytes : BitVec 64
  icapWordsRemaining : BitVec 64
  dataLine : BitVec 512
  lineBytes : BitVec 7
  halfSelect : Bool
  readResponse : BitVec 512
  readData : BitVec 256
  icapWordIndex : BitVec 3
  status : BitVec 8
  lastError : BitVec 8
  reconfActive : Bool
  activeSlotId : BitVec 8
  lastSlotId : BitVec 8
  reconfCycles : BitVec 64
  lastReconfCycles : BitVec 64
  icapPrDoneSeen : Bool
  icapPrErrSeen : Bool

variable {slotCount : Nat}

/-- What the `rst` branch assigns. -/
def Ctrl.reset (slotCount : Nat) : Ctrl slotCount where
  state := .idle
  sAxisTready := false
  mAxisTvalid := false
  mAxisTdata := 0
  mAxisTkeep := 0
  mAxisTlast := false
  icapTvalid := false
  icapTdata := 0
  icapTlast := false
  slotDecouple := fun _ => false
  awaddr := 0
  awvalid := false
  wdata := 0
  wstrb := 0
  wlast := false
  wvalid := false
  bready := false
  araddr := 0
  arvalid := false
  rready := false
  currentAddr := 0
  remainingBytes := 0
  icapWordsRemaining := 0
  dataLine := 0
  lineBytes := 0
  halfSelect := false
  readResponse := 0
  readData := 0
  icapWordIndex := 0
  status := Err.ok.code
  lastError := Err.ok.code
  reconfActive := false
  activeSlotId := 0
  lastSlotId := 0
  reconfCycles := 0
  lastReconfCycles := 0
  icapPrDoneSeen := false
  icapPrErrSeen := false

/-! ## 3. The command line -/

/-- `cmd_*`: the fields of a command line, and the checks on them. -/
def cmdOpcode (t : BitVec 512) : BitVec 8 := t.extractLsb' 0 8
def cmdSlotId (t : BitVec 512) : BitVec 8 := t.extractLsb' 8 8
def cmdAddr (t : BitVec 512) : BitVec 64 := t.extractLsb' 64 64
def cmdSize (t : BitVec 512) : BitVec 64 := t.extractLsb' 128 64
def cmdAddrFits (t : BitVec 512) : Bool := (cmdAddr t).extractLsb' 33 31 == 0
def cmdAddrAligned (t : BitVec 512) : Bool := (cmdAddr t).extractLsb' 0 5 == 0
def cmdSizeNonzero (t : BitVec 512) : Bool := cmdSize t != 0
def cmdReadSizeOk (t : BitVec 512) : Bool := decide (cmdSize t ≤ 64)
def cmdReconfSizeOk (t : BitVec 512) : Bool := (cmdSize t).extractLsb' 0 2 == 0
def cmdSlotOk (slotCount : Nat) (t : BitVec 512) : Bool := decide ((cmdSlotId t).toNat < slotCount)

/-! ## 4. Functions -/

/-- `strobe_for_bytes`: the low `byteCount` of the 32 byte strobes. -/
def strobeForBytes (byteCount : BitVec 6) : BitVec 32 :=
  Bits.ofBits 32 fun i => decide (i < byteCount.toNat)

/-- `write_bytes_for_half`: how many bytes of a line of `lineBytes` lie in one 32-byte half. -/
def writeBytesForHalf (lineBytes : BitVec 7) (halfSelect : Bool) : BitVec 6 :=
  if !halfSelect then
    if lineBytes ≥ 32 then 32 else lineBytes.setWidth 6
  else if lineBytes ≥ 64 then 32
  else if lineBytes > 32 then lineBytes.setWidth 6 - 32
  else 0

/-- `next_line_bytes`. -/
def nextLineBytes (remainingBytes : BitVec 64) : BitVec 7 :=
  if remainingBytes > 64 then 64 else remainingBytes.setWidth 7

/-- `mask_data_256`: the low `byteCount` bytes of a beat, the others zero. -/
def maskData256 (data : BitVec 256) (byteCount : BitVec 6) : BitVec 256 :=
  Bits.ofBits 256 fun k => decide (k / 8 < byteCount.toNat) && data.getLsbD k

/-- `read_first_byte_count`. -/
def readFirstByteCount (byteCount : BitVec 64) : BitVec 6 :=
  if byteCount ≥ 32 then 32 else byteCount.setWidth 6

/-- `read_second_byte_count`. -/
def readSecondByteCount (byteCount : BitVec 64) : BitVec 6 :=
  let tailCount := byteCount - 32
  if tailCount ≥ 32 then 32 else tailCount.setWidth 6

/-- `select_icap_word`. -/
def selectIcapWord (data : BitVec 256) (index : BitVec 3) : BitVec 32 :=
  match index.toNat with
  | 0 => data.extractLsb' 0 32
  | 1 => data.extractLsb' 32 32
  | 2 => data.extractLsb' 64 32
  | 3 => data.extractLsb' 96 32
  | 4 => data.extractLsb' 128 32
  | 5 => data.extractLsb' 160 32
  | 6 => data.extractLsb' 192 32
  | _ => data.extractLsb' 224 32

/-! ## 5. Tasks -/

/-- `start_status`: raise the one-line status response. -/
def startStatus (r : Ctrl slotCount) (e : Err) : Ctrl slotCount :=
  { r with
    status := e.code
    lastError := e.code
    mAxisTdata := e.code.setWidth 512
    mAxisTkeep := BitVec.allOnes 64
    mAxisTlast := true
    mAxisTvalid := true
    state := .sendStatus }

/-- The structured line `start_query_status` builds, highest field first. -/
def queryStatusData (s : Ctrl slotCount) (icapAvail : Bool) : BitVec 512 :=
  ((0 : BitVec 320) ++ (if s.reconfActive then s.reconfCycles else 0) ++ s.lastReconfCycles ++
    (0 : BitVec 8) ++ (BitVec.ofBool s.icapPrErrSeen).setWidth 8 ++
    (BitVec.ofBool s.icapPrDoneSeen).setWidth 8 ++ (BitVec.ofBool icapAvail).setWidth 8 ++
    s.lastError ++ s.lastSlotId ++ (BitVec.ofBool s.reconfActive).setWidth 8 ++
    Err.ok.code : BitVec (320 + 64 + 64 + 8 + 8 + 8 + 8 + 8 + 8 + 8 + 8)).cast (by decide)

/-- `start_query_status`. Unlike `start_status` it leaves `last_error` alone. -/
def startQueryStatus (s : Ctrl slotCount) (i : In) (r : Ctrl slotCount) : Ctrl slotCount :=
  { r with
    status := Err.ok.code
    mAxisTdata := queryStatusData s i.icapAvail
    mAxisTkeep := BitVec.allOnes 64
    mAxisTlast := true
    mAxisTvalid := true
    state := .sendStatus }

/-- A write to one bit of `slot_decouple`; an index outside the vector writes nothing. -/
def setSlot (d : Fin slotCount → Bool) (slot : BitVec 8) (v : Bool) : Fin slotCount → Bool :=
  fun k => if k.val = slot.toNat then v else d k

/-- `finish_reconf`. -/
def finishReconf (s r : Ctrl slotCount) (e : Err) : Ctrl slotCount :=
  startStatus
    { r with
      slotDecouple := setSlot r.slotDecouple s.activeSlotId false
      lastSlotId := s.activeSlotId
      lastReconfCycles := s.reconfCycles
      reconfActive := false } e

/-! ## 6. One branch of the state machine per definition -/

/-- The statements before the `case`, all under `if (reconf_active_reg)`: cycle counter and
    PRDONE / PRERROR latches. -/
def latch (s : Ctrl slotCount) (i : In) : Ctrl slotCount :=
  { s with
    reconfCycles := if s.reconfActive then s.reconfCycles + 1 else s.reconfCycles
    icapPrDoneSeen := if s.reconfActive && i.icapPrDone then true else s.icapPrDoneSeen
    icapPrErrSeen := if s.reconfActive && i.icapPrErr then true else s.icapPrErrSeen }

/-- `STATE_IDLE`, a valid `WRITE_HBM`. -/
def startWrite (r : Ctrl slotCount) (t : BitVec 512) : Ctrl slotCount :=
  { r with
    currentAddr := (cmdAddr t).setWidth 33
    remainingBytes := cmdSize t
    state := .writeWaitData }

/-- `STATE_IDLE`, a valid `READ_HBM`. -/
def startRead (r : Ctrl slotCount) (t : BitVec 512) : Ctrl slotCount :=
  { r with
    currentAddr := (cmdAddr t).setWidth 33
    remainingBytes := cmdSize t
    readResponse := 0
    state := .readAddr0 }

/-- `STATE_IDLE`, a valid `RECONF_ICAP`: the later assignments to the cycle counter and the
    latches override those of `latch`. -/
def startReconf (r : Ctrl slotCount) (t : BitVec 512) : Ctrl slotCount :=
  { r with
    currentAddr := (cmdAddr t).setWidth 33
    icapWordsRemaining := ((cmdSize t).extractLsb' 2 62).setWidth 64
    icapWordIndex := 0
    activeSlotId := cmdSlotId t
    reconfCycles := 0
    reconfActive := true
    icapPrDoneSeen := false
    icapPrErrSeen := false
    slotDecouple := setSlot r.slotDecouple (cmdSlotId t) true
    state := .reconfAddr }

/-- The validation chain of `STATE_IDLE`, first failing check first. -/
def acceptCommand (s : Ctrl slotCount) (i : In) (r : Ctrl slotCount) : Ctrl slotCount :=
  let t := i.sAxisTdata
  if cmdOpcode t ≠ opWriteHbm ∧ cmdOpcode t ≠ opReadHbm ∧
      cmdOpcode t ≠ opReconfIcap ∧ cmdOpcode t ≠ opQueryStatus then
    startStatus r .opcode
  else if cmdOpcode t = opQueryStatus then startQueryStatus s i r
  else if !cmdAddrFits t then startStatus r .addr
  else if !cmdAddrAligned t then startStatus r .align
  else if !cmdSizeNonzero t then startStatus r .size
  else if cmdOpcode t = opReadHbm ∧ !cmdReadSizeOk t then startStatus r .size
  else if cmdOpcode t = opReconfIcap ∧ !cmdReconfSizeOk t then startStatus r .size
  else if cmdOpcode t = opReconfIcap ∧ !cmdSlotOk slotCount t then startStatus r .slot
  else if cmdOpcode t = opWriteHbm then startWrite r t
  else if cmdOpcode t = opReadHbm then startRead r t
  else startReconf r t

/-- The unconditional assignments of `STATE_IDLE`, with the value `s_axis_tready` ends up with. -/
def idleRegs (r : Ctrl slotCount) (tready : Bool) : Ctrl slotCount :=
  { r with
    sAxisTready := tready
    mAxisTvalid := false
    mAxisTlast := false
    icapTvalid := false
    icapTlast := false
    awvalid := false
    wvalid := false
    wlast := false
    bready := false
    arvalid := false
    rready := false }

def idleEdge (s : Ctrl slotCount) (i : In) (r : Ctrl slotCount) : Ctrl slotCount :=
  if i.sAxisTvalid && s.sAxisTready then acceptCommand s i (idleRegs r false)
  else idleRegs r true

def writeWaitDataEdge (s : Ctrl slotCount) (i : In) (r : Ctrl slotCount) : Ctrl slotCount :=
  let r := { r with sAxisTready := true }
  if i.sAxisTvalid && s.sAxisTready then
    { r with
      sAxisTready := false
      dataLine := i.sAxisTdata
      lineBytes := nextLineBytes s.remainingBytes
      halfSelect := false
      state := .writeAddr }
  else r

def writeAddrEdge (s : Ctrl slotCount) (i : In) (r : Ctrl slotCount) : Ctrl slotCount :=
  let r := { r with
    awaddr := s.currentAddr + (if s.halfSelect then addrIncr32 else 0)
    awvalid := true }
  if s.awvalid && i.awready then
    { r with
      awvalid := false
      wdata := if s.halfSelect then s.dataLine.extractLsb' 256 256 else s.dataLine.extractLsb' 0 256
      wstrb := strobeForBytes (writeBytesForHalf s.lineBytes s.halfSelect)
      wlast := true
      wvalid := true
      state := .writeData }
  else r

def writeDataEdge (s : Ctrl slotCount) (i : In) (r : Ctrl slotCount) : Ctrl slotCount :=
  if s.wvalid && i.wready then
    { r with wvalid := false, wlast := false, bready := true, state := .writeResp }
  else r

def writeRespEdge (s : Ctrl slotCount) (i : In) (r : Ctrl slotCount) : Ctrl slotCount :=
  if i.bvalid && s.bready then
    let r := { r with bready := false }
    if i.bresp ≠ 0 then startStatus r .axiBresp
    else if !s.halfSelect && decide (s.lineBytes > 32) then
      { r with halfSelect := true, state := .writeAddr }
    else if s.remainingBytes ≤ s.lineBytes.setWidth 64 then
      startStatus
        { r with
          remainingBytes := 0
          currentAddr := s.currentAddr + s.lineBytes.setWidth 33 } .ok
    else
      { r with
        remainingBytes := s.remainingBytes - s.lineBytes.setWidth 64
        currentAddr := s.currentAddr + s.lineBytes.setWidth 33
        state := .writeWaitData }
  else r

/-- `STATE_READ_ADDR_0`, `STATE_READ_ADDR_1` and `STATE_RECONF_ADDR`: present a read address until
    it is taken, then wait for the beat in `next`. -/
def readAddrEdge (addr : BitVec 33) (next : St) (s : Ctrl slotCount) (i : In)
    (r : Ctrl slotCount) : Ctrl slotCount :=
  let r := { r with araddr := addr, arvalid := true }
  if s.arvalid && i.arready then { r with arvalid := false, rready := true, state := next } else r

def readAddr0Edge (s : Ctrl slotCount) (i : In) (r : Ctrl slotCount) : Ctrl slotCount :=
  readAddrEdge s.currentAddr .readData0 s i r

def readAddr1Edge (s : Ctrl slotCount) (i : In) (r : Ctrl slotCount) : Ctrl slotCount :=
  readAddrEdge (s.currentAddr + addrIncr32) .readData1 s i r

def reconfAddrEdge (s : Ctrl slotCount) (i : In) (r : Ctrl slotCount) : Ctrl slotCount :=
  readAddrEdge s.currentAddr .reconfData s i r

/-- The frame the three read-data states share: take one beat, answer a bad RRESP or a missing
    RLAST with a status, else go on with `good`. -/
def readDataEdge (good : Ctrl slotCount → Ctrl slotCount) (s : Ctrl slotCount) (i : In)
    (r : Ctrl slotCount) : Ctrl slotCount :=
  if i.rvalid && s.rready then
    let r := { r with rready := false }
    if i.rresp ≠ 0 then startStatus r .axiRresp
    else if !i.rlast then startStatus r .rlast
    else good r
  else r

/-- Raise the response line of a read. -/
def readSendLine (r : Ctrl slotCount) (line : BitVec 512) : Ctrl slotCount :=
  { r with
    mAxisTdata := line
    mAxisTkeep := BitVec.allOnes 64
    mAxisTlast := true
    mAxisTvalid := true
    state := .readSend }

def readData0Edge (s : Ctrl slotCount) (i : In) (r : Ctrl slotCount) : Ctrl slotCount :=
  readDataEdge (fun r =>
    let low := maskData256 i.rdata (readFirstByteCount s.remainingBytes)
    let r := { r with readResponse := s.readResponse.extractLsb' 256 256 ++ low }
    if s.remainingBytes > 32 then { r with state := .readAddr1 }
    else readSendLine r ((0 : BitVec 256) ++ low)) s i r

def readData1Edge (s : Ctrl slotCount) (i : In) (r : Ctrl slotCount) : Ctrl slotCount :=
  readDataEdge (fun r =>
    let high := maskData256 i.rdata (readSecondByteCount s.remainingBytes)
    readSendLine { r with readResponse := high ++ s.readResponse.extractLsb' 0 256 }
      (high ++ s.readResponse.extractLsb' 0 256)) s i r

/-- `STATE_READ_SEND` and `STATE_SEND_STATUS`: hold the response line until it is taken. -/
def sendEdge (s : Ctrl slotCount) (i : In) (r : Ctrl slotCount) : Ctrl slotCount :=
  if s.mAxisTvalid && i.mAxisTready then
    { r with mAxisTvalid := false, mAxisTlast := false, state := .idle }
  else r

def reconfDataEdge (s : Ctrl slotCount) (i : In) (r : Ctrl slotCount) : Ctrl slotCount :=
  readDataEdge (fun r =>
    { r with
      readData := i.rdata
      icapWordIndex := 0
      icapTdata := i.rdata.extractLsb' 0 32
      icapTlast := s.icapWordsRemaining == 1
      icapTvalid := true
      state := .reconfStream }) s i r

def reconfStreamEdge (s : Ctrl slotCount) (i : In) (r : Ctrl slotCount) : Ctrl slotCount :=
  if s.icapTvalid && i.icapTready then
    if s.icapWordsRemaining = 1 then
      { r with
        icapWordsRemaining := 0
        icapTvalid := false
        icapTlast := false
        state := .reconfWaitDone }
    else
      let r := { r with icapWordsRemaining := s.icapWordsRemaining - 1 }
      if s.icapWordIndex = 7 then
        { r with
          currentAddr := s.currentAddr + addrIncr32
          icapWordIndex := 0
          icapTvalid := false
          icapTlast := false
          state := .reconfAddr }
      else
        { r with
          icapWordIndex := s.icapWordIndex + 1
          icapTdata := selectIcapWord s.readData (s.icapWordIndex + 1)
          icapTlast := s.icapWordsRemaining == 2 }
  else r

def reconfWaitDoneEdge (s : Ctrl slotCount) (i : In) (r : Ctrl slotCount) : Ctrl slotCount :=
  if i.icapPrErr || s.icapPrErrSeen then finishReconf s r .icap
  else if i.icapPrDone || s.icapPrDoneSeen then finishReconf s r .ok
  else r

/-! ## 7. One clock edge -/

/-- The `else` branch of the clocked block: the edge with `rst` low. -/
def Ctrl.edge (s : Ctrl slotCount) (i : In) : Ctrl slotCount :=
  let r := latch s i
  match s.state with
  | .idle => idleEdge s i r
  | .writeWaitData => writeWaitDataEdge s i r
  | .writeAddr => writeAddrEdge s i r
  | .writeData => writeDataEdge s i r
  | .writeResp => writeRespEdge s i r
  | .readAddr0 => readAddr0Edge s i r
  | .readData0 => readData0Edge s i r
  | .readAddr1 => readAddr1Edge s i r
  | .readData1 => readData1Edge s i r
  | .readSend => sendEdge s i r
  | .reconfAddr => reconfAddrEdge s i r
  | .reconfData => reconfDataEdge s i r
  | .reconfStream => reconfStreamEdge s i r
  | .reconfWaitDone => reconfWaitDoneEdge s i r
  | .sendStatus => sendEdge s i r
  | .other => { r with state := .idle }

/-- **One clock edge of `reconfctrl`.** -/
def Ctrl.clock (s : Ctrl slotCount) (i : In) : Ctrl slotCount :=
  if i.rst then Ctrl.reset slotCount else s.edge i

end Frac.Reconf
