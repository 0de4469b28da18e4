/-
  File:      Frac/Tcp/Sender.lean
  Subject:   The sender (`pkt_sender.v`): response frames on their way to the TCP stack, each announced
             by one metadata word and released by one status.

  Three FIFOs: the beats, the metadata of the frames whose last beat has come in, and the statuses of
  the stack. `tx_payload_active` is set by a metadata word that is taken and cleared by a last beat;
  `tx_status_consumed` says that the status of the frame under way is used up. The FIFOs are of any
  latency: at each edge their pins say whether a head is shown and whether there is room, as far as
  the contents allow it. `tkeep` is all ones and not kept here.

  * `Sender.clock` -- one clock edge; `Sender.crossing` -- what crosses the ports to the stack at it;
  * `turn_cases` -- **what an edge can do**: nothing, announce a frame, send a beat, drop a beat.
-/
import Frac.Lib.Clocked
import Frac.Lib.Fifo

namespace Frac.Tcp

/-! ## 1. Registers and pins -/

/-- One beat on `pkt_rx`: `{meta, tlast, data}`. -/
structure SendBeat where
  txMeta : BitVec 32
  tlast : Bool
  data : BitVec 512

/-- What the payload FIFO keeps of a beat. -/
def SendBeat.word (b : SendBeat) : Bool × BitVec 512 := (b.tlast, b.data)

structure Sender where
  status : Fifo 256 Bool
  payload : Fifo 512 (Bool × BitVec 512)
  metadata : Fifo 256 (BitVec 32)
  /-- `tx_payload_active` -/
  active : Bool
  /-- `tx_status_consumed` -/
  consumed : Bool

def Sender.reset : Sender := ⟨.empty, .empty, .empty, false, false⟩

/-- The input pins at one clock edge, and those of the three FIFOs. -/
structure SenderIn where
  rst : Bool
  rx : Option SendBeat
  txStatus : Option (BitVec 64)
  metadataTready : Bool
  dataTready : Bool
  status : Fifo.Pins
  payload : Fifo.Pins
  metadata : Fifo.Pins

/-- Bit 62 of a status: the connection is closed. -/
def statusError (w : BitVec 64) : Bool := w.getLsbD 62

/-! ## 2. The combinational block -/

namespace Sender

variable (s : Sender) (i : SenderIn)

/-- `status_tx_tdata`, where `status_tx_tvalid` is high; and so the other two. -/
def statusTx : Option Bool := s.status.shown i.status
def payloadTx : Option (Bool × BitVec 512) := s.payload.shown i.payload
def metadataTx : Option (BitVec 32) := s.metadata.shown i.metadata

/-- `pkt_rx_tready`. -/
def rxTready : Bool := s.metadata.room i.metadata && s.payload.room i.payload

/-- The beat taken in: `payload_rx_tvalid`. -/
def taken : Option SendBeat := if s.rxTready i then i.rx else none

/-- The exception handler: the frame is sent to a closed connection. -/
def discards : Bool :=
  s.active && !s.consumed && (s.statusTx i == some true) && (s.payloadTx i).isSome

/-- `m_axis_tx_data_tvalid_inst`. -/
def dataValidInst : Bool :=
  s.active && (s.payloadTx i).isSome && (s.consumed || (s.statusTx i).isSome)

def statusTready : Bool :=
  if s.discards i then true else s.dataValidInst i && !s.consumed && i.dataTready

def payloadTready : Bool := if s.discards i then true else s.dataValidInst i && i.dataTready

/-- `m_axis_tx_data_tvalid`. -/
def dataTvalid : Bool := if s.discards i then false else (s.payloadTx i).isSome && s.payloadTready i

/-- `metadata_tx_tready`; `m_axis_tx_metadata_tvalid` has the same second factor. -/
def metadataTready : Bool := i.metadataTready && !s.active

/-- The items that leave the three FIFOs. -/
def statusLeft : Option Bool := s.status.left i.status (s.statusTready i)
def payloadLeft : Option (Bool × BitVec 512) := s.payload.left i.payload (s.payloadTready i)
def metadataLeft : Option (BitVec 32) := s.metadata.left i.metadata (s.metadataTready i)

/-! ## 3. The clocked block -/

/-- `{tx_payload_active, tx_status_consumed}`. -/
def flagsNext : Bool × Bool :=
  if !s.active && (s.metadataTx i).isSome && s.metadataTready i then (true, false)
  else if s.active && (s.payloadTx i).isSome && s.payloadTready i then
    let last := (s.payloadTx i).any (·.1)
    if last then (false, false)
    else (s.active, s.consumed || (!s.consumed && (s.statusTx i == some false)))
  else (s.active, s.consumed)

/-- The clock edge with `rst` low. -/
def edge : Sender where
  status := s.status.slowEdge i.status (i.txStatus.map statusError) (s.statusTready i)
  payload := s.payload.slowEdge i.payload ((s.taken i).map (·.word)) (s.payloadTready i)
  metadata := s.metadata.slowEdge i.metadata (((s.taken i).filter (·.tlast)).map (·.txMeta))
    (s.metadataTready i)
  active := (s.flagsNext i).1
  consumed := (s.flagsNext i).2

/-- **One clock edge of the sender.** -/
def clock : Sender := if i.rst then Sender.reset else s.edge i

end Sender

/-! ## 4. What crosses the ports -/

/-- What is handed over to the stack, or taken from it, at one edge: a metadata word, a beat with its
    `tlast`, a status. -/
structure Crossing where
  metadata : Option (BitVec 32)
  data : Option (Bool × BitVec 512)
  status : Option Bool
  deriving DecidableEq

def Crossing.quiet : Crossing := ⟨none, none, none⟩

/-- The ports to the stack at an edge. -/
def Sender.crossing (s : Sender) (i : SenderIn) : Crossing where
  metadata := s.metadataLeft i
  data := if s.dataTvalid i && i.dataTready then s.payloadTx i else none
  status := s.statusLeft i

/-- **What an edge can do with the frames**, with the items that leave the payload, metadata and status
    FIFOs. -/
inductive Turn (s : Sender) (i : SenderIn) : Option (Bool × BitVec 512) → Option (BitVec 32) →
    Option Bool → Prop where
  /-- nothing -/
  | rest (c : s.crossing i = .quiet) (f : s.flagsNext i = (s.active, s.consumed)) :
      Turn s i none none none
  /-- a metadata word is taken -/
  | announce {m : BitVec 32} (a : s.active = false) (c : s.crossing i = ⟨some m, none, none⟩)
      (f : s.flagsNext i = (true, false)) : Turn s i none (some m) none
  /-- the first beat, with the status of the frame -/
  | first {w : Bool × BitVec 512} (a : s.active = true) (u : s.consumed = false)
      (c : s.crossing i = ⟨none, some w, some false⟩) (f : s.flagsNext i = (!w.1, !w.1)) :
      Turn s i (some w) none (some false)
  /-- a further beat -/
  | more {w : Bool × BitVec 512} (a : s.active = true) (u : s.consumed = true)
      (c : s.crossing i = ⟨none, some w, none⟩) (f : s.flagsNext i = (!w.1, !w.1)) :
      Turn s i (some w) none none
  /-- a beat is dropped, with an error status -/
  | drop {w : Bool × BitVec 512} (a : s.active = true) (u : s.consumed = false)
      (c : s.crossing i = ⟨none, none, some true⟩) (f : s.flagsNext i = (!w.1, false)) :
      Turn s i (some w) none (some true)

theorem statusLeft_eq (s : Sender) (i : SenderIn) :
    s.statusLeft i = if s.statusTready i then s.statusTx i else none := rfl

theorem payloadLeft_eq (s : Sender) (i : SenderIn) :
    s.payloadLeft i = if s.payloadTready i then s.payloadTx i else none := rfl

theorem metadataLeft_eq (s : Sender) (i : SenderIn) :
    s.metadataLeft i = if s.metadataTready i then s.metadataTx i else none := rfl

/-- A frame under way that waits. -/
theorem turn_rest {s : Sender} {i : SenderIn} (ha : s.active = true) (hp : s.payloadTready i = false)
    (hs : s.statusTready i = false) : Turn s i (s.payloadLeft i) (s.metadataLeft i) (s.statusLeft i) := by
  have hm : s.metadataLeft i = none := by
    rw [metadataLeft_eq, Sender.metadataTready, ha, Bool.not_true, Bool.and_false]
    rfl
  have hdt : s.dataTvalid i = false := by
    rw [Sender.dataTvalid, hp, Bool.and_false, ite_self]
  have hpay : s.payloadLeft i = none := by rw [payloadLeft_eq, hp]; rfl
  have hst : s.statusLeft i = none := by rw [statusLeft_eq, hs]; rfl
  rw [hm, hpay, hst]
  refine .rest ?_ ?_
  · rw [Sender.crossing, hm, hst, hdt]
    rfl
  · rw [Sender.flagsNext, ha, hp, Bool.and_false]
    rfl

/-- **Every edge is a turn.** -/
theorem turn_cases (s : Sender) (i : SenderIn) :
    Turn s i (s.payloadLeft i) (s.metadataLeft i) (s.statusLeft i) := by
  cases ha : s.active with
  | false =>
      -- between two frames
      have hd : s.discards i = false := by rw [Sender.discards, ha]; rfl
      have hv : s.dataValidInst i = false := by rw [Sender.dataValidInst, ha]; rfl
      have hp : s.payloadLeft i = none := by
        rw [payloadLeft_eq, Sender.payloadTready, hd, hv]
        rfl
      have hst : s.statusLeft i = none := by
        rw [statusLeft_eq, Sender.statusTready, hd, hv]
        rfl
      have hdt : s.dataTvalid i = false := by
        rw [Sender.dataTvalid, Sender.payloadTready, hd, hv]
        simp
      have hc : s.crossing i = ⟨s.metadataLeft i, none, none⟩ := by
        rw [Sender.crossing, hst, hdt]
        rfl
      rw [hp, hst]
      cases hm : s.metadataLeft i with
      | none =>
          rw [hm] at hc
          refine .rest hc ?_
          rw [metadataLeft_eq] at hm
          rw [Sender.flagsNext, ha]
          cases hr : s.metadataTready i with
          | false => simp
          | true =>
              rw [hr, if_pos rfl] at hm
              simp [hm]
      | some m =>
          rw [hm] at hc
          refine .announce ha hc ?_
          rw [metadataLeft_eq] at hm
          cases hr : s.metadataTready i with
          | false => rw [hr] at hm; cases hm
          | true =>
              rw [hr, if_pos rfl] at hm
              rw [Sender.flagsNext, ha, hm, hr]
              rfl
  | true =>
      have hm : s.metadataLeft i = none := by
        rw [metadataLeft_eq, Sender.metadataTready, ha, Bool.not_true, Bool.and_false]
        rfl
      cases hp : s.payloadTx i with
      | none =>
          have hd : s.discards i = false := by rw [Sender.discards, hp, Option.isSome_none, Bool.and_false]
          have hv : s.dataValidInst i = false := by
            rw [Sender.dataValidInst, hp, Option.isSome_none, Bool.and_false, Bool.false_and]
          exact turn_rest ha (by rw [Sender.payloadTready, hd, hv]; rfl)
            (by rw [Sender.statusTready, hd, hv]; rfl)
      | some w =>
          obtain ⟨last, d⟩ := w
          cases hu : s.consumed with
          | true =>
              have hd : s.discards i = false := by rw [Sender.discards, ha, hu]; rfl
              have hv : s.dataValidInst i = true := by rw [Sender.dataValidInst, ha, hp, hu]; rfl
              cases hr : i.dataTready with
              | false =>
                  exact turn_rest ha (by rw [Sender.payloadTready, hd, hr, Bool.and_false]; rfl)
                    (by rw [Sender.statusTready, hd, hr, Bool.and_false]; rfl)
              | true =>
                  have hpop : s.payloadTready i = true := by rw [Sender.payloadTready, hd, hv, hr]; rfl
                  have hst : s.statusTready i = false := by rw [Sender.statusTready, hd, hv, hu]; rfl
                  have hdt : s.dataTvalid i = true := by rw [Sender.dataTvalid, hd, hp, hpop]; rfl
                  rw [hm, payloadLeft_eq, statusLeft_eq, hpop, hst, hp]
                  refine .more ha hu ?_ ?_
                  · rw [Sender.crossing, hm, statusLeft_eq, hst, hdt, hr, hp]
                    rfl
                  · rw [Sender.flagsNext, ha, hp, hpop, hu]
                    cases last <;> rfl
          | false =>
              cases hs : s.statusTx i with
              | none =>
                  have hd : s.discards i = false := by rw [Sender.discards, ha, hu, hs]; rfl
                  have hv : s.dataValidInst i = false := by rw [Sender.dataValidInst, ha, hp, hu, hs]; rfl
                  exact turn_rest ha (by rw [Sender.payloadTready, hd, hv]; rfl)
                    (by rw [Sender.statusTready, hd, hv]; rfl)
              | some e =>
                  cases e with
                  | true =>
                      have hd : s.discards i = true := by rw [Sender.discards, ha, hu, hs, hp]; rfl
                      have hpop : s.payloadTready i = true := by rw [Sender.payloadTready, hd]; rfl
                      have hst : s.statusTready i = true := by rw [Sender.statusTready, hd]; rfl
                      have hdt : s.dataTvalid i = false := by rw [Sender.dataTvalid, hd]; rfl
                      rw [hm, payloadLeft_eq, statusLeft_eq, hpop, hst, hp, hs]
                      refine .drop ha hu ?_ ?_
                      · rw [Sender.crossing, hm, statusLeft_eq, hst, hdt, hp, hs]
                        rfl
                      · rw [Sender.flagsNext, ha, hp, hpop, hu, hs]
                        cases last <;> rfl
                  | false =>
                      have hd : s.discards i = false := by rw [Sender.discards, ha, hu, hs]; rfl
                      have hv : s.dataValidInst i = true := by
                        rw [Sender.dataValidInst, ha, hp, hu, hs]
                        rfl
                      cases hr : i.dataTready with
                      | false =>
                          exact turn_rest ha (by rw [Sender.payloadTready, hd, hr, Bool.and_false]; rfl)
                            (by rw [Sender.statusTready, hd, hr, Bool.and_false]; rfl)
                      | true =>
                          have hpop : s.payloadTready i = true := by
                            rw [Sender.payloadTready, hd, hv, hr]
                            rfl
                          have hst : s.statusTready i = true := by
                            rw [Sender.statusTready, hd, hv, hu, hr]
                            rfl
                          have hdt : s.dataTvalid i = true := by rw [Sender.dataTvalid, hd, hp, hpop]; rfl
                          rw [hm, payloadLeft_eq, statusLeft_eq, hpop, hst, hp, hs]
                          refine .first ha hu ?_ ?_
                          · rw [Sender.crossing, hm, statusLeft_eq, hst, hdt, hr, hp, hs]
                            rfl
                          · rw [Sender.flagsNext, ha, hp, hpop, hu, hs]
                            cases last <;> rfl

end Frac.Tcp
