/-
  File:      Frac/Client/Session.lean
  Subject:   The Go functions of `sw/pr/main.go` that stage, read back and start a bitstream, over a
             connection to the device.

  A connection is the device and what goes on around it: one window of clock edges for every exchange
  to come. A request is delivered as one packet; the exchange ends when its window does, with the
  response if one has left the device by then, and else with the error of a deadline that has passed.
  What the functions print, the latencies they measure and the pauses they make are left out.

  * `Conn.sendAndReadStatus` -- one exchange;
  * `Pr.uploadBitstream`, `Pr.readHBM`, `Pr.runReconfig` -- the three client functions, with what they
    return and the connection they leave.
-/
import Frac.Client.Requests
import Frac.PktLogic.Operations

namespace Frac.Client

open Bits Clocked PktLogic Reassembly

variable {n slotCount : Nat}

/-! ## 1. Bytes -/

namespace Pr

def roundUp (value align : Nat) : Nat :=
  if align = 0 then value
  else if value % align = 0 then value else value + align - value % align

def padCopy (data : List (BitVec 8)) (size : Nat) : List (BitVec 8) :=
  data.take size ++ List.replicate (size - data.length) 0

def statusOK (response : List (BitVec 8)) : Bool :=
  response.length == requestLineBytes && response.take 1 == [0] &&
    response.drop 1 == List.replicate (requestLineBytes - 1) 0

def opWriteHBM : BitVec 8 := 1
def opReadHBM : BitVec 8 := 2
def opReconfICAP : BitVec 8 := 3

/-- The errors of the client functions: `read %s response`, `WRITE_HBM status not OK at offset=%d
    hbm_addr=0x%x` and `RECONF_ICAP status not OK`, both with the response. -/
inductive Error where
  | read (name : String)
  | writeStatus (offset addr : Nat) (response : List (BitVec 8))
  | reconfStatus (response : List (BitVec 8))
  deriving DecidableEq

end Pr

/-! ## 2. A connection -/

variable [FifoKind]

/-- The device, the session of the connection, and the windows of the exchanges to come. -/
structure Conn (n slotCount : Nat) where
  kernel : Kernel n slotCount
  session : BitVec 16
  windows : List (List FeedIn)

/-- A request as one packet. -/
def packetOf (session : BitVec 16) (request : List (BitVec 8)) : List (DispLine Unit) :=
  packetLines session (BitVec.ofNat 16 request.length) ((lines 64 request).map fun t => (t, ()))

namespace Conn

/-- The device at the end of the window. -/
def outcome (c : Conn n slotCount) (request : List (BitVec 8)) : Feed n slotCount :=
  run Feed.step (Feed.start c.kernel (packetOf c.session request)) (c.windows.headD [])

/-- The connection after the exchange. -/
def next (c : Conn n slotCount) (request : List (BitVec 8)) : Conn n slotCount :=
  ⟨(c.outcome request).kernel, c.session, c.windows.tail⟩

/-- `sendAndReadStatus`: the 64 bytes of the first response, or the error of the deadline. -/
def sendAndReadStatus (c : Conn n slotCount) (name : String) (request : List (BitVec 8)) :
    Except Pr.Error (List (BitVec 8)) × Conn n slotCount :=
  (match (c.outcome request).answered with
    | [] => .error (.read name)
    | (_, r) :: _ => .ok (toBytes 64 r.tdata), c.next request)

/-! The same over another memory. -/

def outcomeBy (f : Feed n slotCount → FeedIn → FeedIn) (c : Conn n slotCount)
    (request : List (BitVec 8)) : Feed n slotCount :=
  run (Feed.stepBy f) (Feed.start c.kernel (packetOf c.session request)) (c.windows.headD [])

def nextBy (f : Feed n slotCount → FeedIn → FeedIn) (c : Conn n slotCount)
    (request : List (BitVec 8)) : Conn n slotCount :=
  ⟨(c.outcomeBy f request).kernel, c.session, c.windows.tail⟩

def sendBy (f : Feed n slotCount → FeedIn → FeedIn) (c : Conn n slotCount) (name : String)
    (request : List (BitVec 8)) : Except Pr.Error (List (BitVec 8)) × Conn n slotCount :=
  (match (c.outcomeBy f request).answered with
    | [] => .error (.read name)
    | (_, r) :: _ => .ok (toBytes 64 r.tdata), c.nextBy f request)

theorem sendBy_served (c : Conn n slotCount) (name : String) (request : List (BitVec 8)) :
    c.sendBy Feed.served name request = c.sendAndReadStatus name request := rfl

end Conn

/-! ## 3. The client functions -/

namespace Pr

/-- The payload of a `WRITE_HBM` request: the chunk, filled up to whole lines. -/
def writePayload (chunk : List (BitVec 8)) : List (BitVec 8) :=
  if chunk.length % requestLineBytes ≠ 0 then padCopy chunk (roundUp chunk.length requestLineBytes)
  else chunk

/-- The loop of `uploadBitstream` over the chunks from `offset` on. -/
def uploadChunks (hbmAddr chunkSize : Nat) (slotID : BitVec 8) :
    List (List (BitVec 8)) → Nat → Nat → Conn n slotCount → (Nat × Option Error) × Conn n slotCount
  | [], _, totalWritten, c => ((totalWritten, none), c)
  | chunk :: rest, offset, totalWritten, c =>
    let addr := hbmAddr + totalWritten
    let req := buildReconfRequest opWriteHBM slotID addr chunk.length (writePayload chunk)
    match c.sendAndReadStatus s!"WRITE_HBM[{offset / chunkSize}]" req with
    | (.error e, c') => ((totalWritten, some e), c')
    | (.ok response, c') =>
      if !statusOK response then ((totalWritten, some (.writeStatus offset addr response)), c')
      else uploadChunks hbmAddr chunkSize slotID rest (offset + chunk.length)
        (totalWritten + chunk.length) c'

/-- `uploadBitstream`: the bytes written, and the error that ended it. -/
def uploadBitstream (c : Conn n slotCount) (hbmAddr : Nat) (prData : List (BitVec 8))
    (chunkSize : Nat) (slotID : BitVec 8) : (Nat × Option Error) × Conn n slotCount :=
  uploadChunks hbmAddr chunkSize slotID (chunks chunkSize prData) 0 0 c

/-- The loop of `readHBM` over its offsets. -/
def readChunks (hbmAddr size : Nat) :
    List Nat → List (BitVec 8) → Conn n slotCount → (List (BitVec 8) × Option Error) × Conn n slotCount
  | [], out, c => ((out, none), c)
  | offset :: rest, out, c =>
    let want := min (size - offset) maxReadBytes
    let req := buildReconfRequest opReadHBM 0 (hbmAddr + offset) want []
    match c.sendAndReadStatus s!"READ_HBM[{offset / maxReadBytes}]" req with
    | (.error e, c') => ((out, some e), c')
    | (.ok response, c') => readChunks hbmAddr size rest (out ++ response.take want) c'

/-- `readHBM`: the bytes read, and the error that ended it. -/
def readHBM (c : Conn n slotCount) (hbmAddr size : Nat) :
    (List (BitVec 8) × Option Error) × Conn n slotCount :=
  readChunks hbmAddr size
    ((List.range ((size + (maxReadBytes - 1)) / maxReadBytes)).map (maxReadBytes * ·)) [] c

/-- The request of `runReconfig`. -/
def reconfRequest (hbmAddr prSize : Nat) (slotID : BitVec 8) : List (BitVec 8) :=
  buildReconfRequest opReconfICAP slotID hbmAddr prSize []

/-- `runReconfig`. -/
def runReconfig (c : Conn n slotCount) (hbmAddr prSize : Nat) (slotID : BitVec 8) :
    Option Error × Conn n slotCount :=
  match c.sendAndReadStatus "RECONF_ICAP" (reconfRequest hbmAddr prSize slotID) with
  | (.error e, c') => (some e, c')
  | (.ok response, c') => (if !statusOK response then some (.reconfStatus response) else none, c')

end Pr

end Frac.Client
