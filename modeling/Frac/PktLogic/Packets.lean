/-
  File:      Frac/PktLogic/Packets.lean
  Subject:   Requests that arrive in one packet each, controller requests and application requests in
             any order: each controller request is answered once, under its own session, and the
             lines it does not need are drained.

  * `Packet` -- a packet that is one complete request; `Packet.beats` -- its lines as the dispatcher
    labels them (`Ahead`);
  * `Stage`, `Visit` -- the controller packet being served, and one that has been answered;
  * `Phase` -- where the branch stands in the stream of beats (`phase_edge`);
  * `packets_answered_once` -- **every controller packet is answered exactly once, in order**.
-/
import Frac.PktLogic.Branch
import Frac.Reassembly.Segmentation

namespace Frac.PktLogic

open Clocked Reassembly Reconf

variable {n slotCount : Nat}

/-! ## 1. Packets -/

/-- The fields of a header line. -/
def lineWorkload (t : BitVec 512) : BitVec 16 := t.extractLsb' 496 16
def lineSize (t : BitVec 512) : BitVec 32 := t.extractLsb' 448 32

/-- **A packet that is one complete request**: a header with FIRST whose declared size, the header
    line of a controller request included, fits the packet; and for the controller a command line
    and at least the payload lines the command needs. -/
structure Packet (slotCount : Nat) where
  length : BitVec 16
  session : BitVec 16
  header : BitVec 512
  rest : List (BitVec 512)
  first : header.getLsbD 480 = true
  fits : (lineSize header).toNat + (if lineWorkload header = reconfApp then 64 else 0) ≤
    length.toNat
  body : lineWorkload header = reconfApp →
    rest ≠ [] ∧ payloadLines slotCount (rest.headD 0) ≤ rest.tail.length

namespace Packet

def isController (p : Packet slotCount) : Bool := decide (lineWorkload p.header = reconfApp)
def command (p : Packet slotCount) : BitVec 512 := p.rest.headD 0
def extra (p : Packet slotCount) : List (BitVec 512) := p.rest.tail

/-- One line of the packet. -/
def line (p : Packet slotCount) (t : BitVec 512) (last : Bool) : DispLine Unit :=
  ⟨p.length, p.session, last, t, ()⟩

/-- Lines of the packet, the last of which is its last. -/
def linesOf (p : Packet slotCount) (ts : List (BitVec 512)) : List (DispLine Unit) :=
  packetLines p.session p.length (ts.map fun t => (t, ()))

/-- The label the dispatcher gives the packet. -/
def label (p : Packet slotCount) : Label := ⟨p.session, lineWorkload p.header, lineSize p.header⟩

def beatsOf (p : Packet slotCount) (ts : List (BitVec 512)) : List (RxBeat Unit) :=
  (p.linesOf ts).map p.label.rx

/-- The packet as it arrives, and as the dispatcher hands it on. -/
def lines (p : Packet slotCount) : List (DispLine Unit) := p.linesOf (p.header :: p.rest)
def beats (p : Packet slotCount) : List (RxBeat Unit) := p.beatsOf (p.header :: p.rest)

end Packet

section Shape

variable (p : Packet slotCount) (t : BitVec 512) (ts : List (BitVec 512))

theorem linesOf_cons : p.linesOf (t :: ts) = p.line t ts.isEmpty :: p.linesOf ts := by
  show p.line t (ts.map fun t => (t, ())).isEmpty :: p.linesOf ts = _
  rw [List.isEmpty_map]

/-- The beat of a line. -/
def Packet.beat (p : Packet slotCount) (t : BitVec 512) (last : Bool) : RxBeat Unit :=
  ⟨0, lineSize p.header, lineWorkload p.header, p.length, p.session, last, t, ()⟩

theorem beatsOf_cons : p.beatsOf (t :: ts) = p.beat t ts.isEmpty :: p.beatsOf ts := by
  rw [Packet.beatsOf, linesOf_cons]
  rfl

theorem mem_beatsOf {b : RxBeat Unit} (h : b ∈ p.beatsOf ts) :
    b.workload = lineWorkload p.header := by
  obtain ⟨l, -, rfl⟩ := List.mem_map.mp h
  rfl

end Shape

/-! ## 2. The dispatcher labels a packet by its header -/

section Run

variable [FifoKind]

/-- **The lines still to arrive and the beats they become**: the dispatcher expects a header between
    two packets, and inside one it has the packet's label and no more bytes to come than the packet
    has. -/
inductive Ahead (slotCount : Nat) (d : Disp Unit) :
    List (DispLine Unit) → List (RxBeat Unit) → Prop where
  | between (qs : List (Packet slotCount)) (he : d.expectingHeader = true) :
      Ahead slotCount d (qs.flatMap Packet.lines) (qs.flatMap Packet.beats)
  | inside (p : Packet slotCount) (ts : List (BitVec 512)) (qs : List (Packet slotCount))
      (hne : ts ≠ []) (he : d.expectingHeader = false)
      (hw : d.workloadSelection = lineWorkload p.header) (hs : d.packetSize = lineSize p.header)
      (hr : d.requestBytesRemaining.toNat ≤ p.length.toNat) :
      Ahead slotCount d (p.linesOf ts ++ qs.flatMap Packet.lines)
        (p.beatsOf ts ++ qs.flatMap Packet.beats)

theorem ahead_idle {d : Disp Unit} {ls : List (DispLine Unit)} {bs : List (RxBeat Unit)}
    (h : Ahead slotCount d ls bs) (ready : Bool) : Ahead slotCount (d.edge none ready) ls bs := by
  cases h with
  | between qs he => exact .between qs he
  | inside p ts qs hne he hw hs hr => exact .inside p ts qs hne he hw hs hr

/-- After the last line of a packet the dispatcher expects a header; before it, it does not. -/
theorem ahead_after {d : Disp Unit} (p : Packet slotCount) (ts : List (BitVec 512))
    (qs : List (Packet slotCount)) (hw : d.workloadSelection = lineWorkload p.header)
    (hs : d.packetSize = lineSize p.header) (he : d.expectingHeader = ts.isEmpty)
    (hr : ts ≠ [] → d.requestBytesRemaining.toNat ≤ p.length.toNat) :
    Ahead slotCount d (p.linesOf ts ++ qs.flatMap Packet.lines)
      (p.beatsOf ts ++ qs.flatMap Packet.beats) := by
  cases ts with
  | nil => exact .between qs he
  | cons t ts => exact .inside p (t :: ts) qs (by simp) he hw hs (hr (by simp))

/-- A line that is the packet's header, or comes inside it, and has no more bytes to come than the
    packet has: the last one ends the request. -/
theorem track_packet {d : Disp Unit} (p : Packet slotCount) (t : BitVec 512) (last : Bool)
    (hc : d.configHeader (p.line t last) = true ∨ d.expectingHeader = false)
    (hb : (d.activeBytes (p.line t last)).toNat ≤ p.length.toNat) :
    (d.track (p.line t last)).1 = last ∧
    (last = false → (d.track (p.line t last)).2.toNat ≤ p.length.toNat) := by
  have hle : d.activeBytes (p.line t last) ≤ p.length.setWidth 32 := by
    have hlen := p.length.isLt
    rw [BitVec.le_def, BitVec.toNat_setWidth, Nat.mod_eq_of_lt (by omega)]
    exact hb
  unfold Disp.track
  cases last with
  | true =>
      show (if _ || decide (d.activeBytes (p.line t true) ≤ p.length.setWidth 32) then
        (true, (0 : BitVec 32)) else _).1 = true ∧ _
      rw [decide_eq_true hle, Bool.or_true, if_pos rfl]
      exact ⟨rfl, Bool.noConfusion⟩
  | false =>
      show (if d.configHeader (p.line t false) then (false, d.activeBytes (p.line t false))
        else (d.expectingHeader, d.requestBytesRemaining)).1 = false ∧ _
      cases hconf : d.configHeader (p.line t false) with
      | true => exact ⟨rfl, fun _ => hb⟩
      | false =>
          rw [Disp.activeBytes, hconf] at hb
          exact ⟨hc.resolve_left (by simp [hconf]), fun _ => hb⟩

/-- The first line of a packet is taken for its header. -/
theorem header_active {d : Disp Unit} (p : Packet slotCount) (he : d.expectingHeader = true)
    (last : Bool) : d.configHeader (p.line p.header last) = true ∧
      (d.activeBytes (p.line p.header last)).toNat ≤ p.length.toNat := by
  have hconf : d.configHeader (p.line p.header last) = true := by
    rw [Disp.configHeader, he]
    exact p.first
  refine ⟨hconf, ?_⟩
  have hfits := p.fits
  rw [Disp.activeBytes, hconf, if_pos rfl]
  show (if lineWorkload p.header = reconfApp then lineSize p.header + 64
    else lineSize p.header).toNat ≤ _
  split
  · rename_i h
    rw [if_pos h] at hfits
    rw [BitVec.toNat_add]
    exact (Nat.mod_le _ _).trans hfits
  · rename_i h
    rw [if_neg h] at hfits
    exact hfits

/-- **A line that arrives becomes the next beat.** -/
theorem ahead_send {d : Disp Unit} {l : DispLine Unit} {ls : List (DispLine Unit)}
    {bs : List (RxBeat Unit)} (h : Ahead slotCount d (l :: ls) bs) (ready : Bool) :
    ∃ bs', bs = d.combine l :: bs' ∧ Ahead slotCount (d.edge (some l) ready) ls bs' := by
  generalize hls : l :: ls = ls' at h
  cases h with
  | between qs he =>
      cases qs with
      | nil => cases hls
      | cons p qs =>
          rw [List.flatMap_cons, Packet.lines, linesOf_cons, List.cons_append] at hls
          obtain ⟨rfl, rfl⟩ := List.cons.inj hls
          obtain ⟨hconf, hb⟩ := header_active p he p.rest.isEmpty
          obtain ⟨h1, h2⟩ := track_packet p p.header p.rest.isEmpty (Or.inl hconf) hb
          have hlabel : d.label (p.line p.header p.rest.isEmpty) =
              (lineSize p.header, lineWorkload p.header) := by
            rw [Disp.label, hconf]
            rfl
          refine ⟨p.beatsOf p.rest ++ qs.flatMap Packet.beats, ?_,
            ahead_after p p.rest qs ?_ ?_ h1 fun hne => h2 (by simpa using hne)⟩
          · rw [List.flatMap_cons, Packet.beats, beatsOf_cons, List.cons_append, Disp.combine, hlabel]
            rfl
          · exact congrArg Prod.snd hlabel
          · exact congrArg Prod.fst hlabel
  | inside p ts qs hne he hw hs hr =>
      cases ts with
      | nil => exact absurd rfl hne
      | cons t ts =>
          rw [linesOf_cons, List.cons_append] at hls
          obtain ⟨rfl, rfl⟩ := List.cons.inj hls
          have hconf : d.configHeader (p.line t ts.isEmpty) = false := by
            rw [Disp.configHeader, he]
            rfl
          have hb : (d.activeBytes (p.line t ts.isEmpty)).toNat ≤ p.length.toNat := by
            rw [Disp.activeBytes, hconf]
            exact hr
          obtain ⟨h1, h2⟩ := track_packet p t ts.isEmpty (Or.inr he) hb
          have hlabel : d.label (p.line t ts.isEmpty) = (lineSize p.header, lineWorkload p.header) := by
            rw [Disp.label, hconf, ← hs, ← hw]
            rfl
          refine ⟨p.beatsOf ts ++ qs.flatMap Packet.beats, ?_,
            ahead_after p ts qs ?_ ?_ h1 fun hne => h2 (by simpa using hne)⟩
          · rw [beatsOf_cons, List.cons_append, Disp.combine, hlabel]
            rfl
          · exact congrArg Prod.snd hlabel
          · exact congrArg Prod.fst hlabel

/-- **The beats not yet handed over**: at every edge the first of them is handed over, or none. -/
theorem stream_edge {y : Feed n slotCount} (hfit : y.Fits) {bs : List (RxBeat Unit)}
    (h : Ahead slotCount y.kernel.front.disp y.todo bs) (i : FeedIn) :
    ∃ bs', Ahead slotCount (y.clock i).kernel.front.disp (y.clock i).todo bs' ∧
      (y.kernel.front.handed y.kernel.reconfReady).toList ++
        ((y.clock i).kernel.front.disp.inflight ++ bs') = y.kernel.front.disp.inflight ++ bs := by
  have hstep := inflight_step hfit ⟨false, y.rx i, i.txTready, y.kernel.reconfReady⟩
  have htodo := rx_todo y i
  have hdisp : (y.clock i).kernel.front.disp = y.kernel.front.disp.edge (y.rx i)
      (y.kernel.front.dispReady y.kernel.reconfReady) := rfl
  cases hrx : y.rx i with
  | none =>
      rw [hrx] at hstep htodo hdisp
      have hold : (y.clock i).todo = y.todo := htodo
      refine ⟨bs, ?_, ?_⟩
      · rw [hdisp, hold]
        exact ahead_idle h _
      · rw [← List.append_assoc, hdisp]
        exact congrArg (· ++ bs) (hstep.trans (List.append_nil _))
  | some l =>
      rw [hrx] at hstep htodo hdisp
      rw [← htodo] at h
      obtain ⟨bs', rfl, hnext⟩ := ahead_send h (y.kernel.front.dispReady y.kernel.reconfReady)
      refine ⟨bs', by rw [hdisp]; exact hnext, ?_⟩
      rw [← List.append_assoc, hdisp]
      exact (congrArg (· ++ bs') hstep).trans (List.append_assoc ..)

/-! ## 3. Packets being served and packets answered -/

def controllers (qs : List (Packet slotCount)) : List (Packet slotCount) :=
  qs.filter Packet.isController

/-- The controller packet whose header has been taken and that is not answered yet: its command is
    still to come, or has been taken with `j` further lines. -/
inductive Stage (slotCount : Nat) where
  | none
  | opened (p : Packet slotCount)
  | busy (p : Packet slotCount) (j : Nat)

def Stage.packets : Stage slotCount → List (Packet slotCount)
  | .none => []
  | .opened p | .busy p _ => [p]

/-- The lines of the packet that have been handshaken into the controller. -/
def Stage.taken : Stage slotCount → List (BitVec 512)
  | .none | .opened _ => []
  | .busy p j => p.command :: p.extra.take j

/-- A controller packet, the number of payload lines taken for its command, and its response. -/
structure Visit (slotCount : Nat) where
  packet : Packet slotCount
  lines : Nat
  resp : Resp

def Visit.taken (v : Visit slotCount) : List (BitVec 512) :=
  v.packet.command :: v.packet.extra.take v.lines

/-- The beat of the response on the controller port of the switch. -/
def Visit.answer (v : Visit slotCount) : TxMeta × Resp := (⟨64, v.packet.session⟩, v.resp)

/-- No more payload lines were taken than the command needs, and all of them if it succeeded. -/
def Visit.Legal (v : Visit slotCount) : Prop :=
  v.lines ≤ payloadLines slotCount v.packet.command ∧
    (v.resp = .status .ok → v.lines = payloadLines slotCount v.packet.command)

/-- The controller while no line of its packet is left in the stream. -/
def Stage.Rests (s : Ctrl slotCount) (m : TxMeta) : Stage slotCount → Prop
  | .none => s.state = .idle
  | .opened _ => False
  | .busy p j => Busy p.command j s ∧ m = ⟨64, p.session⟩ ∧ j = p.extra.length

/-- **What an edge settles**: the packets answered at it, with the lines taken and the responses. -/
structure Settled (k : Kernel n slotCount) (i : KernelIn) (cur cur' : Stage slotCount)
    (qs qs' : List (Packet slotCount)) (vs : List (Visit slotCount)) : Prop where
  packets : cur.packets ++ controllers qs = vs.map (·.packet) ++ (cur'.packets ++ controllers qs')
  taken : cur.taken ++ k.lineTaken = vs.flatMap Visit.taken ++ cur'.taken
  answered : k.answerTaken i = vs.map Visit.answer
  legal : ∀ v ∈ vs, v.Legal

/-- **Where the branch stands in the stream of beats** that are not yet handed over. -/
inductive Phase (k : Kernel n slotCount) :
    Stage slotCount → List (RxBeat Unit) → List (Packet slotCount) → Prop where
  | apart (cur : Stage slotCount) (as : List (RxBeat Unit)) (qs : List (Packet slotCount))
      (hseen : k.flags.seenHeader = false) (has : ∀ b ∈ as, b.workload ≠ reconfApp)
      (hc : cur.Rests k.sys.ctrl k.flags.txMeta) : Phase k cur (as ++ qs.flatMap Packet.beats) qs
  | opened (p : Packet slotCount) (qs : List (Packet slotCount)) (hp : p.isController = true)
      (hseen : k.flags.seenHeader = true) (hdrain : k.flags.drainPacket = false)
      (hidle : k.sys.ctrl.state = .idle) (hmeta : k.flags.txMeta = ⟨64, p.session⟩) :
      Phase k (.opened p) (p.beatsOf p.rest ++ qs.flatMap Packet.beats) qs
  | inside (p : Packet slotCount) (j : Nat) (qs : List (Packet slotCount))
      (hp : p.isController = true) (hseen : k.flags.seenHeader = true)
      (hdrain : k.flags.drainPacket = false) (hb : Busy p.command j k.sys.ctrl)
      (hmeta : k.flags.txMeta = ⟨64, p.session⟩) (hj : j < p.extra.length) :
      Phase k (.busy p j) (p.beatsOf (p.extra.drop j) ++ qs.flatMap Packet.beats) qs
  | draining (p : Packet slotCount) (d : Nat) (qs : List (Packet slotCount))
      (hp : p.isController = true) (hseen : k.flags.seenHeader = true)
      (hdrain : k.flags.drainPacket = true) (hidle : k.sys.ctrl.state = .idle)
      (hd : d < p.extra.length) :
      Phase k .none (p.beatsOf (p.extra.drop d) ++ qs.flatMap Packet.beats) qs

/-! ## 4. One edge -/

section Edge

variable {k : Kernel n slotCount} {i : KernelIn} {b : RxBeat Unit}

omit [FifoKind] in
theorem isController_iff {p : Packet slotCount} :
    p.isController = true ↔ lineWorkload p.header = reconfApp := decide_eq_true_iff

/-- No header, no last line and no response: the registers of the branch stay. -/
theorem flagsNext_hold (h1 : (k.headerLine && k.reconfReady) = false)
    (h2 : (k.payloadLine && k.reconfReady && k.head.any (·.tlast)) = false)
    (h3 : (k.sys.ctrl.mAxisTvalid && i.pins.mAxisTready) = false ∨ k.flags.seenHeader = false) :
    k.flagsNext i = k.flags := by
  have h3' : (k.sys.ctrl.mAxisTvalid && i.pins.mAxisTready && k.sys.ctrl.mAxisTlast &&
      k.flags.seenHeader) = false := by
    rcases h3 with h | h
    · rw [h]; rfl
    · rw [h, Bool.and_false]
  rw [Kernel.flagsNext, h1, h2, h3']
  rfl

/-- A response that finds its packet open. -/
theorem flagsNext_drain (h1 : (k.headerLine && k.reconfReady) = false)
    (h2 : (k.payloadLine && k.reconfReady && k.head.any (·.tlast)) = false)
    (h3 : (k.sys.ctrl.mAxisTvalid && i.pins.mAxisTready) = true)
    (h4 : k.sys.ctrl.mAxisTlast = true) (h5 : k.flags.seenHeader = true) :
    k.flagsNext i = { k.flags with drainPacket := true } := by
  rw [Kernel.flagsNext, h1, h2, h3, h4, h5]
  rfl

theorem flagsNext_last (h1 : k.headerLine = false)
    (h2 : (k.payloadLine && k.reconfReady && k.head.any (·.tlast)) = true) :
    k.flagsNext i = { k.flags with seenHeader := false, drainPacket := false } := by
  rw [Kernel.flagsNext, h1, h2]
  rfl

/-- Without a header before it no line is forwarded. -/
theorem forward_unseen (h : k.flags.seenHeader = false) : k.forwardLine = false := by
  rw [Kernel.forwardLine, Kernel.payloadLine, h, Bool.and_false]
  rfl

theorem lineTaken_none (h : k.forwardLine = false) : k.lineTaken = [] := by
  rw [Kernel.lineTaken, h]
  rfl

omit [FifoKind] in
/-- **The controller while nothing is forwarded to it.** -/
theorem unfed_edge {s : Ctrl slotCount} {m : TxMeta} {cur : Stage slotCount} (hsg : Signals s)
    (h : cur.Rests s m) {j : In} (hv : j.sAxisTvalid = false) :
    ∃ (cur' : Stage slotCount) (vs : List (Visit slotCount)), cur'.Rests (s.edge j) m ∧
      cur.packets = vs.map (·.packet) ++ cur'.packets ∧
      cur.taken = vs.flatMap Visit.taken ++ cur'.taken ∧
      (responseTaken s j).map (fun r => (m, r)) = vs.map Visit.answer ∧ ∀ v ∈ vs, v.Legal := by
  have hno : (j.sAxisTvalid && s.sAxisTready) = false := by rw [hv]; rfl
  cases cur with
  | none =>
      obtain ⟨hr, ⟨h1, -⟩ | ⟨-, h2⟩⟩ := idle_edge hsg h j
      · rw [hno] at h1; cases h1
      · exact ⟨.none, [], h2, rfl, rfl, by rw [hr]; rfl, fun v hm => by cases hm⟩
  | opened p => exact h.elim
  | busy p l =>
      obtain ⟨hb, hm, hl⟩ := h
      rcases busy_edge hsg hb j with ⟨h1, -⟩ | ⟨-, hr, hb'⟩ | ⟨-, hr, hidle, hle, hok⟩
      · rw [hno] at h1; cases h1
      · exact ⟨.busy p l, [], ⟨hb', hm, hl⟩, rfl, rfl, by rw [hr]; rfl, fun v hm => by cases hm⟩
      · refine ⟨.none, [⟨p, l, s.response⟩], hidle, rfl, ?_, ?_, ?_⟩
        · simp [Stage.taken, Visit.taken]
        · rw [hr, hm]
          rfl
        · intro v hv
          rw [List.mem_singleton.mp hv]
          exact ⟨hle, hok⟩

variable {cur : Stage slotCount} {rest rest' : List (RxBeat Unit)} {qs : List (Packet slotCount)}

/-- Between two controller packets: beats of the scheduler pass by, a header waits for the controller
    to be idle. -/
theorem phase_apart (hsg : Signals k.sys.ctrl) (hrst : i.rst = false) (as : List (RxBeat Unit))
    (hhead : ∀ b, k.head = some b → ∃ tl, as ++ qs.flatMap Packet.beats = b :: tl)
    (hrest : (k.front.handed k.reconfReady).toList ++ rest' = as ++ qs.flatMap Packet.beats)
    (hseen : k.flags.seenHeader = false) (has : ∀ b ∈ as, b.workload ≠ reconfApp)
    (hc : cur.Rests k.sys.ctrl k.flags.txMeta) :
    ∃ cur' qs' vs, Phase (k.edge i) cur' rest' qs' ∧ Settled k i cur cur' qs qs' vs := by
  have hpay : k.payloadLine = false := by rw [Kernel.payloadLine, hseen, Bool.and_false]
  have hfw : k.forwardLine = false := by rw [Kernel.forwardLine, hpay]; rfl
  obtain ⟨cur', vs, hc', hpk, htk, hans, hleg⟩ := unfed_edge (j := k.ctrlIn i) hsg hc hfw
  have hctrl := ctrl_edge k hrst
  -- the registers stay and the stream has moved by application beats, if at all
  have hstay : ∀ (as' : List (RxBeat Unit)) (qs' : List (Packet slotCount)),
      rest' = as' ++ qs'.flatMap Packet.beats → (∀ b ∈ as', b.workload ≠ reconfApp) →
      controllers qs' = controllers qs → (k.headerLine && k.reconfReady) = false →
      ∃ cur' qs' vs, Phase (k.edge i) cur' rest' qs' ∧ Settled k i cur cur' qs qs' vs := by
    rintro as' qs' rfl has' hqs hhold
    have hflags : (k.edge i).flags = k.flags :=
      flagsNext_hold hhold (by rw [hpay]; rfl) (Or.inr hseen)
    refine ⟨cur', qs', vs, .apart cur' as' qs' (by rw [hflags]; exact hseen) has' ?_, ?_, ?_, hans,
      hleg⟩
    · rw [hflags, hctrl]
      exact hc'
    · rw [hpk, hqs, List.append_assoc]
    · rw [lineTaken_none hfw, List.append_nil]
      exact htk
  cases hh : k.head with
  | none =>
      rw [handed_none hh] at hrest
      exact hstay as qs hrest has rfl (by rw [Kernel.headerLine, reconfSelected_none hh]; rfl)
  | some b =>
      obtain ⟨tl, htl⟩ := hhead b hh
      by_cases hw : b.workload = reconfApp
      · -- a header: the first beat of the next packet
        obtain ⟨rfl, p, qs', rfl, hb⟩ : as = [] ∧ ∃ p qs', qs = p :: qs' ∧
            b = p.beat p.header p.rest.isEmpty := by
          cases as with
          | cons a as =>
              obtain ⟨rfl, -⟩ := List.cons.inj htl
              exact absurd hw (has a (List.mem_cons_self ..))
          | nil =>
              cases qs with
              | nil => cases htl
              | cons p qs' =>
                  rw [List.nil_append, List.flatMap_cons, Packet.beats, beatsOf_cons] at htl
                  exact ⟨rfl, p, qs', rfl, (List.cons.inj htl).1.symm⟩
        have hp : lineWorkload p.header = reconfApp := by rw [← hw, hb]; rfl
        have hline : k.headerLine = true := by
          rw [Kernel.headerLine, reconfSelected_some hh, hseen, decide_eq_true hw]
          rfl
        have hready : k.reconfReady = decide (k.sys.ctrl.state = .idle) := by
          rw [Kernel.reconfReady, hline]
          rfl
        rw [handed_selected hh hw, hready] at hrest
        by_cases hidle : k.sys.ctrl.state = .idle
        · rw [decide_eq_true hidle, if_pos rfl, List.nil_append, List.flatMap_cons, Packet.beats,
            beatsOf_cons, ← hb] at hrest
          obtain ⟨-, rfl⟩ := List.cons.inj hrest
          obtain ⟨hr0, ⟨h1, -⟩ | ⟨-, hidle'⟩⟩ := idle_edge hsg hidle (k.ctrlIn i)
          · rw [show (k.ctrlIn i).sAxisTvalid = false from hfw] at h1
            cases h1
          obtain rfl : cur = .none := by
            cases cur with
            | none => rfl
            | opened p => exact hc.elim
            | busy p j => exact absurd hidle hc.1.not_idle
          have hne : p.rest.isEmpty = false := by simpa using (p.body hp).1
          have hflags : k.flagsNext i = ⟨true, false, ⟨64, p.session⟩⟩ := by
            rw [Kernel.flagsNext, hline, hready, decide_eq_true hidle, hh, hb]
            simp [Packet.beat, hne]
          refine ⟨.opened p, qs', [], .opened p qs' (isController_iff.mpr hp) ?_ ?_ ?_ ?_, ?_, ?_, ?_,
            fun v hv => by cases hv⟩
          · exact congrArg Flags.seenHeader hflags
          · exact congrArg Flags.drainPacket hflags
          · rw [hctrl]
            exact hidle'
          · exact congrArg Flags.txMeta hflags
          · rw [controllers, List.filter_cons, isController_iff.mpr hp]
            rfl
          · rw [lineTaken_none hfw]
            rfl
          · rw [Kernel.answerTaken, hr0]
            rfl
        · rw [decide_eq_false hidle] at hrest
          exact hstay [] (p :: qs') hrest has rfl (by rw [hready, decide_eq_false hidle, Bool.and_false])
      · have hline : (k.headerLine && k.reconfReady) = false := by
          rw [Kernel.headerLine, reconfSelected_some hh, decide_eq_false hw]
          rfl
        cases hd : k.front.handed k.reconfReady with
        | none =>
            rw [hd] at hrest
            exact hstay as qs hrest has rfl hline
        | some b' =>
            obtain rfl : b = b' := Option.some_injective _ (hh.symm.trans (handed_head hd))
            rw [hd, Option.toList_some, List.singleton_append] at hrest
            cases as with
            | cons a as =>
                exact hstay as qs (List.cons.inj hrest).2
                  (fun b hb => has b (List.mem_cons_of_mem a hb)) rfl hline
            | nil =>
                cases qs with
                | nil => cases hrest
                | cons p qs' =>
                    rw [List.nil_append, List.flatMap_cons, Packet.beats, beatsOf_cons] at hrest
                    obtain ⟨rfl, rfl⟩ := List.cons.inj hrest
                    have hp : lineWorkload p.header ≠ reconfApp := hw
                    refine hstay (p.beatsOf p.rest) qs' rfl (fun b hb => ?_) ?_ hline
                    · rw [mem_beatsOf p p.rest hb]
                      exact hp
                    · rw [controllers, controllers, List.filter_cons, Packet.isController,
                        decide_eq_false hp]
                      rfl

/-- Inside a packet the head, if it has arrived, is the packet's next line. -/
theorem head_line {p : Packet slotCount} {t : BitVec 512} {ts : List (BitVec 512)}
    (hp : p.isController = true) (hseen : k.flags.seenHeader = true)
    (hhead : ∀ b, k.head = some b →
      ∃ tl, p.beatsOf (t :: ts) ++ qs.flatMap Packet.beats = b :: tl)
    (hrest : (k.front.handed k.reconfReady).toList ++ rest' =
      p.beatsOf (t :: ts) ++ qs.flatMap Packet.beats) :
    k.headerLine = false ∧
    ((k.payloadLine = false ∧ rest' = p.beatsOf (t :: ts) ++ qs.flatMap Packet.beats) ∨
      (k.payloadLine = true ∧ k.head = some (p.beat t ts.isEmpty) ∧
        (k.reconfReady = true ∧ rest' = p.beatsOf ts ++ qs.flatMap Packet.beats ∨
          k.reconfReady = false ∧ rest' = p.beatsOf (t :: ts) ++ qs.flatMap Packet.beats))) := by
  refine ⟨by rw [Kernel.headerLine, hseen]; exact Bool.and_false _, ?_⟩
  cases hh : k.head with
  | none =>
      rw [handed_none hh] at hrest
      exact Or.inl ⟨by rw [Kernel.payloadLine, reconfSelected_none hh]; rfl, hrest⟩
  | some b =>
      obtain ⟨tl, htl⟩ := hhead b hh
      rw [beatsOf_cons] at htl
      obtain ⟨rfl, -⟩ := List.cons.inj htl
      have hw : (p.beat t ts.isEmpty).workload = reconfApp := isController_iff.mp hp
      refine Or.inr ⟨?_, rfl, ?_⟩
      · rw [Kernel.payloadLine, reconfSelected_some hh, hseen, decide_eq_true hw]
        rfl
      · rw [handed_selected hh hw] at hrest
        cases hr : k.reconfReady with
        | false =>
            rw [hr] at hrest
            exact Or.inr ⟨rfl, hrest⟩
        | true =>
            rw [hr, beatsOf_cons] at hrest
            exact Or.inl ⟨rfl, (List.cons.inj hrest).2⟩

/-- After the header: the command goes to the controller. -/
theorem phase_opened (hsg : Signals k.sys.ctrl) (hrst : i.rst = false) (p : Packet slotCount)
    (hhead : ∀ b, k.head = some b → ∃ tl, p.beatsOf p.rest ++ qs.flatMap Packet.beats = b :: tl)
    (hrest : (k.front.handed k.reconfReady).toList ++ rest' =
      p.beatsOf p.rest ++ qs.flatMap Packet.beats)
    (hp : p.isController = true) (hseen : k.flags.seenHeader = true)
    (hdrain : k.flags.drainPacket = false) (hidle : k.sys.ctrl.state = .idle)
    (hmeta : k.flags.txMeta = ⟨64, p.session⟩) :
    ∃ cur' qs' vs, Phase (k.edge i) cur' rest' qs' ∧ Settled k i (.opened p) cur' qs qs' vs := by
  have hshape : p.rest = p.command :: p.extra := by
    have hne := (p.body (isController_iff.mp hp)).1
    unfold Packet.command Packet.extra
    cases hr : p.rest with
    | nil => exact absurd hr hne
    | cons t ts => rfl
  have hctrl := ctrl_edge k hrst
  have hmute : (k.sys.ctrl.mAxisTvalid && i.pins.mAxisTready) = false := by
    rw [hsg.mAxisTvalid, hidle]
    rfl
  obtain ⟨hr0, hstep⟩ := idle_edge hsg hidle (k.ctrlIn i)
  have hans : k.answerTaken i = [] := by rw [Kernel.answerTaken, hr0]; rfl
  rw [hshape] at hhead hrest
  obtain ⟨hline, hcases⟩ := head_line hp hseen hhead hrest
  -- nothing is taken: everything stays
  have hstay : k.lineTaken = [] → (k.edge i).sys.ctrl.state = .idle → k.flagsNext i = k.flags →
      rest' = p.beatsOf (p.command :: p.extra) ++ qs.flatMap Packet.beats →
      ∃ cur' qs' vs, Phase (k.edge i) cur' rest' qs' ∧ Settled k i (.opened p) cur' qs qs' vs := by
    rintro h1 h2 h3 rfl
    have h3' : (k.edge i).flags = k.flags := h3
    rw [← hshape]
    refine ⟨.opened p, qs, [], .opened p qs hp (by rw [h3']; exact hseen) (by rw [h3']; exact hdrain)
      h2 (by rw [h3']; exact hmeta), rfl, ?_, hans, fun v hv => by cases hv⟩
    rw [h1]
    rfl
  rcases hcases with ⟨hpay, hr'⟩ | ⟨hpay, hh, hcases⟩
  · have hfw : k.forwardLine = false := by rw [Kernel.forwardLine, hpay]; rfl
    rcases hstep with ⟨h1, -⟩ | ⟨-, h2⟩
    · rw [show (k.ctrlIn i).sAxisTvalid = false from hfw] at h1
      cases h1
    · exact hstay (lineTaken_none hfw) (by rw [hctrl]; exact h2)
        (flagsNext_hold (by rw [hline]; rfl) (by rw [hpay]; rfl) (Or.inl hmute)) hr'
  · have hfw : k.forwardLine = true := by rw [Kernel.forwardLine, hpay, hdrain]; rfl
    have hready : k.reconfReady = k.sys.ctrl.sAxisTready := by
      rw [Kernel.reconfReady, hline, hdrain]
      rfl
    have hv : (k.ctrlIn i).sAxisTvalid = true := hfw
    have hdata : (k.ctrlIn i).sAxisTdata = p.command := by
      show (k.head.map (·.payload)).getD 0 = _
      rw [hh]
      rfl
    rw [hv, Bool.true_and, ← hready, hdata] at hstep
    rcases hcases with ⟨hrd, rfl⟩ | ⟨hrd, hr'⟩
    · -- the command is taken
      have hbusy : Busy p.command 0 (k.edge i).sys.ctrl := by
        rcases hstep with ⟨-, hb⟩ | ⟨h1, -⟩
        · rw [hctrl]
          exact hb
        · rw [hrd] at h1; cases h1
      have htaken : k.lineTaken = [p.command] := by
        rw [Kernel.lineTaken, hfw, ← hready, hrd, hh]
        rfl
      have hset : ∀ j, p.extra.take j = [] → Settled k i (.opened p) (.busy p j) qs qs [] := by
        intro j hj
        refine ⟨rfl, ?_, hans, fun v hv => by cases hv⟩
        rw [htaken]
        show [p.command] = p.command :: p.extra.take j
        rw [hj]
      cases hex : p.extra with
      | nil =>
          have hflags : (k.edge i).flags = { k.flags with seenHeader := false, drainPacket := false } :=
            flagsNext_last hline (by rw [hpay, hrd, hh, hex]; rfl)
          exact ⟨.busy p 0, qs, [], .apart (.busy p 0) [] qs (by rw [hflags]) (by simp)
            ⟨hbusy, by rw [hflags]; exact hmeta, by rw [hex]; rfl⟩, hset 0 rfl⟩
      | cons e es =>
          have hflags : (k.edge i).flags = k.flags :=
            flagsNext_hold (by rw [hline]; rfl) (by rw [hh, hex]; simp [Packet.beat]) (Or.inl hmute)
          have := Phase.inside (k := k.edge i) p 0 qs hp (by rw [hflags]; exact hseen)
            (by rw [hflags]; exact hdrain) hbusy (by rw [hflags]; exact hmeta) (by rw [hex]; simp)
          rw [List.drop_zero, hex] at this
          exact ⟨.busy p 0, qs, [], this, hset 0 rfl⟩
    · refine hstay ?_ ?_ (flagsNext_hold (by rw [hline]; rfl) (by rw [hrd]; simp) (Or.inl hmute)) hr'
      · rw [Kernel.lineTaken, ← hready, hrd, Bool.and_false]
        rfl
      · rcases hstep with ⟨h1, -⟩ | ⟨-, h2⟩
        · rw [hrd] at h1; cases h1
        · rw [hctrl]
          exact h2

/-- Inside a packet whose command is being served: payload goes to the controller, and a response
    leaves the rest to be drained. -/
theorem phase_inside (hsg : Signals k.sys.ctrl) (hf : Framed k.sys.ctrl) (hrst : i.rst = false)
    (p : Packet slotCount) (j : Nat)
    (hhead : ∀ b, k.head = some b →
      ∃ tl, p.beatsOf (p.extra.drop j) ++ qs.flatMap Packet.beats = b :: tl)
    (hrest : (k.front.handed k.reconfReady).toList ++ rest' =
      p.beatsOf (p.extra.drop j) ++ qs.flatMap Packet.beats)
    (hp : p.isController = true) (hseen : k.flags.seenHeader = true)
    (hdrain : k.flags.drainPacket = false) (hb : Busy p.command j k.sys.ctrl)
    (hmeta : k.flags.txMeta = ⟨64, p.session⟩) (hj : j < p.extra.length) :
    ∃ cur' qs' vs, Phase (k.edge i) cur' rest' qs' ∧ Settled k i (.busy p j) cur' qs qs' vs := by
  have hshape : p.extra.drop j = p.extra[j] :: p.extra.drop (j + 1) := List.drop_eq_getElem_cons hj
  have hctrl := ctrl_edge k hrst
  rw [hshape] at hhead hrest
  obtain ⟨hline, hcases⟩ := head_line hp hseen hhead hrest
  have hhold : (k.headerLine && k.reconfReady) = false := by rw [hline]; rfl
  -- no line is taken: the response leaves, or everything stays
  have hstay : k.lineTaken = [] → (k.payloadLine && k.reconfReady) = false →
      ((k.ctrlIn i).sAxisTvalid && k.sys.ctrl.sAxisTready) = false →
      rest' = p.beatsOf (p.extra[j] :: p.extra.drop (j + 1)) ++ qs.flatMap Packet.beats →
      ∃ cur' qs' vs, Phase (k.edge i) cur' rest' qs' ∧ Settled k i (.busy p j) cur' qs qs' vs := by
    rintro h1 h2 hno rfl
    rw [← hshape]
    have hlast : (k.payloadLine && k.reconfReady && k.head.any (·.tlast)) = false := by
      rw [h2]
      rfl
    rcases busy_edge hsg hb (k.ctrlIn i) with ⟨h3, -⟩ | ⟨-, hr, hb'⟩ | ⟨-, hr, hidle, hle, hok⟩
    · rw [hno] at h3; cases h3
    · have hmute : (k.sys.ctrl.mAxisTvalid && i.pins.mAxisTready) = false := by
        refine Bool.eq_false_iff.mpr fun e => ?_
        rw [responseTaken_some (i := k.ctrlIn i) e] at hr
        cases hr
      have hflags : (k.edge i).flags = k.flags := flagsNext_hold hhold hlast (Or.inl hmute)
      refine ⟨.busy p j, qs, [], .inside p j qs hp (by rw [hflags]; exact hseen)
        (by rw [hflags]; exact hdrain) (by rw [hctrl]; exact hb') (by rw [hflags]; exact hmeta) hj,
        rfl, ?_, by rw [Kernel.answerTaken, hr]; rfl, fun v hv => by cases hv⟩
      rw [h1, List.append_nil]
      rfl
    · have hsend : (k.sys.ctrl.mAxisTvalid && i.pins.mAxisTready) = true := by
        cases e : k.sys.ctrl.mAxisTvalid && i.pins.mAxisTready with
        | true => rfl
        | false =>
            rw [responseTaken_none (i := k.ctrlIn i) e] at hr
            cases hr
      have htlast : k.sys.ctrl.mAxisTlast = true := by
        have hs : k.sys.ctrl.state.sends = true :=
          hsg.mAxisTvalid.symm.trans (Bool.and_eq_true_iff.mp hsend).1
        exact congrArg Resp.tlast (hf hs)
      have hflags : (k.edge i).flags = { k.flags with drainPacket := true } :=
        flagsNext_drain hhold hlast hsend htlast hseen
      refine ⟨.none, qs, [⟨p, j, k.sys.ctrl.response⟩], .draining p j qs hp (by rw [hflags]; exact hseen)
        (by rw [hflags]) (by rw [hctrl]; exact hidle) hj, rfl, ?_, ?_, ?_⟩
      · rw [h1]
        simp [Stage.taken, Visit.taken]
      · rw [Kernel.answerTaken, hr, hmeta]
        rfl
      · intro v hv
        rw [List.mem_singleton.mp hv]
        exact ⟨hle, hok⟩
  rcases hcases with ⟨hpay, hr'⟩ | ⟨hpay, hh, hcases⟩
  · have hfw : k.forwardLine = false := by rw [Kernel.forwardLine, hpay]; rfl
    exact hstay (lineTaken_none hfw) (by rw [hpay]; rfl)
      (by rw [show (k.ctrlIn i).sAxisTvalid = false from hfw]; rfl) hr'
  · have hfw : k.forwardLine = true := by rw [Kernel.forwardLine, hpay, hdrain]; rfl
    have hready : k.reconfReady = k.sys.ctrl.sAxisTready := by
      rw [Kernel.reconfReady, hline, hdrain]
      rfl
    have hv : (k.ctrlIn i).sAxisTvalid = true := hfw
    rcases hcases with ⟨hrd, rfl⟩ | ⟨hrd, hr'⟩
    · -- a payload line is taken
      have hyes : ((k.ctrlIn i).sAxisTvalid && k.sys.ctrl.sAxisTready) = true := by
        rw [hv, ← hready, hrd]
        rfl
      obtain ⟨hr, hb'⟩ : responseTaken k.sys.ctrl (k.ctrlIn i) = [] ∧
          Busy p.command (j + 1) (k.sys.ctrl.edge (k.ctrlIn i)) := by
        rcases busy_edge hsg hb (k.ctrlIn i) with ⟨-, hr, hb'⟩ | ⟨h3, -⟩ | ⟨h3, -⟩
        · exact ⟨hr, hb'⟩
        · rw [hyes] at h3; cases h3
        · rw [hyes] at h3; cases h3
      have hmute : (k.sys.ctrl.mAxisTvalid && i.pins.mAxisTready) = false := by
        refine Bool.eq_false_iff.mpr fun e => ?_
        rw [responseTaken_some (i := k.ctrlIn i) e] at hr
        cases hr
      have hset : Settled k i (.busy p j) (.busy p (j + 1)) qs qs [] := by
        refine ⟨rfl, ?_, by rw [Kernel.answerTaken, hr]; rfl, fun v hv => by cases hv⟩
        have htaken : k.lineTaken = [p.extra[j]] := by
          rw [Kernel.lineTaken, hfw, ← hready, hrd, hh]
          rfl
        rw [htaken]
        show (p.command :: p.extra.take j) ++ [p.extra[j]] = p.command :: p.extra.take (j + 1)
        rw [List.take_succ_eq_append_getElem hj]
        rfl
      by_cases hend : j + 1 < p.extra.length
      · have hne : (p.extra.drop (j + 1)).isEmpty = false := by simpa using hend
        have hflags : (k.edge i).flags = k.flags :=
          flagsNext_hold hhold (by rw [hh, hne]; simp [Packet.beat]) (Or.inl hmute)
        exact ⟨.busy p (j + 1), qs, [], .inside p (j + 1) qs hp (by rw [hflags]; exact hseen)
          (by rw [hflags]; exact hdrain) (by rw [hctrl]; exact hb') (by rw [hflags]; exact hmeta) hend,
          hset⟩
      · have hnil : p.extra.drop (j + 1) = [] := List.drop_eq_nil_of_le (Nat.le_of_not_lt hend)
        have hflags : (k.edge i).flags = { k.flags with seenHeader := false, drainPacket := false } :=
          flagsNext_last hline (by rw [hpay, hrd, hh, hnil]; rfl)
        rw [hnil]
        exact ⟨.busy p (j + 1), qs, [], .apart (.busy p (j + 1)) [] qs (by rw [hflags]) (by simp)
          ⟨by rw [hctrl]; exact hb', by rw [hflags]; exact hmeta, by omega⟩, hset⟩
    · exact hstay (by rw [Kernel.lineTaken, ← hready, hrd, Bool.and_false]; rfl)
        (by rw [hrd, Bool.and_false]) (by rw [← hready, hrd, Bool.and_false]) hr'

/-- Behind the response: the lines left are drained. -/
theorem phase_draining (hsg : Signals k.sys.ctrl) (hrst : i.rst = false) (p : Packet slotCount)
    (d : Nat)
    (hhead : ∀ b, k.head = some b →
      ∃ tl, p.beatsOf (p.extra.drop d) ++ qs.flatMap Packet.beats = b :: tl)
    (hrest : (k.front.handed k.reconfReady).toList ++ rest' =
      p.beatsOf (p.extra.drop d) ++ qs.flatMap Packet.beats)
    (hp : p.isController = true) (hseen : k.flags.seenHeader = true)
    (hdrain : k.flags.drainPacket = true) (hidle : k.sys.ctrl.state = .idle)
    (hd : d < p.extra.length) :
    ∃ cur' qs' vs, Phase (k.edge i) cur' rest' qs' ∧ Settled k i .none cur' qs qs' vs := by
  have hshape : p.extra.drop d = p.extra[d] :: p.extra.drop (d + 1) := List.drop_eq_getElem_cons hd
  have hfw : k.forwardLine = false := by rw [Kernel.forwardLine, hdrain]; exact Bool.and_false _
  obtain ⟨hr0, ⟨h1, -⟩ | ⟨-, hidle'⟩⟩ := idle_edge hsg hidle (k.ctrlIn i)
  · rw [show (k.ctrlIn i).sAxisTvalid = false from hfw] at h1
    cases h1
  rw [← ctrl_edge k hrst] at hidle'
  have hmute : (k.sys.ctrl.mAxisTvalid && i.pins.mAxisTready) = false := by
    rw [hsg.mAxisTvalid, hidle]
    rfl
  have hset : Settled k i .none .none qs qs [] := by
    refine ⟨rfl, ?_, by rw [Kernel.answerTaken, hr0]; rfl, fun v hv => by cases hv⟩
    rw [lineTaken_none hfw]
    rfl
  rw [hshape] at hhead hrest
  obtain ⟨hline, hcases⟩ := head_line hp hseen hhead hrest
  have hhold : (k.headerLine && k.reconfReady) = false := by rw [hline]; rfl
  have hready : k.reconfReady = true := by rw [Kernel.reconfReady, hline, hdrain]; rfl
  rcases hcases with ⟨hpay, rfl⟩ | ⟨hpay, hh, ⟨-, rfl⟩ | ⟨h2, -⟩⟩
  · have hflags : (k.edge i).flags = k.flags :=
      flagsNext_hold hhold (by rw [hpay]; rfl) (Or.inl hmute)
    rw [← hshape]
    exact ⟨.none, qs, [], .draining p d qs hp (by rw [hflags]; exact hseen)
      (by rw [hflags]; exact hdrain) hidle' hd, hset⟩
  · by_cases hend : d + 1 < p.extra.length
    · have hne : (p.extra.drop (d + 1)).isEmpty = false := by simpa using hend
      have hflags : (k.edge i).flags = k.flags :=
        flagsNext_hold hhold (by rw [hh, hne]; simp [Packet.beat]) (Or.inl hmute)
      exact ⟨.none, qs, [], .draining p (d + 1) qs hp (by rw [hflags]; exact hseen)
        (by rw [hflags]; exact hdrain) hidle' hend, hset⟩
    · have hnil : p.extra.drop (d + 1) = [] := List.drop_eq_nil_of_le (Nat.le_of_not_lt hend)
      have hflags : (k.edge i).flags = { k.flags with seenHeader := false, drainPacket := false } :=
        flagsNext_last hline (by rw [hpay, hready, hh, hnil]; rfl)
      rw [hnil]
      exact ⟨.none, qs, [], .apart .none [] qs (by rw [hflags]) (by simp) hidle', hset⟩
  · rw [hready] at h2; cases h2

/-- **One edge of the branch.** -/
theorem phase_edge (hsg : Signals k.sys.ctrl) (hf : Framed k.sys.ctrl) (hrst : i.rst = false)
    (h : Phase k cur rest qs) (hhead : ∀ b, k.head = some b → ∃ tl, rest = b :: tl)
    (hrest : (k.front.handed k.reconfReady).toList ++ rest' = rest) :
    ∃ cur' qs' vs, Phase (k.edge i) cur' rest' qs' ∧ Settled k i cur cur' qs qs' vs := by
  cases h with
  | apart cur as qs hseen has hc => exact phase_apart hsg hrst as hhead hrest hseen has hc
  | opened p qs hp hseen hdrain hidle hmeta =>
      exact phase_opened hsg hrst p hhead hrest hp hseen hdrain hidle hmeta
  | inside p j qs hp hseen hdrain hb hmeta hj =>
      exact phase_inside hsg hf hrst p j hhead hrest hp hseen hdrain hb hmeta hj
  | draining p d qs hp hseen hdrain hidle hd =>
      exact phase_draining hsg hrst p d hhead hrest hp hseen hdrain hidle hd

end Edge

/-! ## 5. Whole runs -/

/-- **The run so far**: the beats handed over and those to come are the packets' beats; the packets
    answered, the one being served and those to come are the controller packets. -/
structure Story (ps : List (Packet slotCount)) (y : Feed n slotCount) (bs : List (RxBeat Unit))
    (cur : Stage slotCount) (qs : List (Packet slotCount)) (vs : List (Visit slotCount)) : Prop where
  signals : Signals y.kernel.sys.ctrl
  framed : Framed y.kernel.sys.ctrl
  ahead : Ahead slotCount y.kernel.front.disp y.todo bs
  phase : Phase y.kernel cur (y.kernel.front.disp.inflight ++ bs) qs
  stream : y.handed ++ (y.kernel.front.disp.inflight ++ bs) = ps.flatMap Packet.beats
  packets : controllers ps = vs.map (·.packet) ++ (cur.packets ++ controllers qs)
  accepted : y.accepted = vs.flatMap Visit.taken ++ cur.taken
  answered : y.answered = vs.map Visit.answer
  legal : ∀ v ∈ vs, v.Legal

/-- **An idle kernel**: nothing is in the dispatcher, which expects a header; no header is seen, and
    the controller waits for a command. -/
structure Kernel.Idle (k : Kernel n slotCount) : Prop where
  signals : Signals k.sys.ctrl
  framed : Framed k.sys.ctrl
  state : k.sys.ctrl.state = .idle
  seenHeader : k.flags.seenHeader = false
  expecting : k.front.disp.expectingHeader = true
  empty : k.front.disp.inflight = []

theorem idle_reset (mem : Mem 33) : (Kernel.reset n slotCount mem).Idle where
  signals := signals_reset
  framed e := by cases e
  state := rfl
  seenHeader := rfl
  expecting := rfl
  empty := rfl

/-- Lines about to arrive at a kernel. -/
def Feed.start (k : Kernel n slotCount) (lines : List (DispLine Unit)) : Feed n slotCount :=
  ⟨k, lines, [], [], []⟩

theorem story_start {k : Kernel n slotCount} (h : k.Idle) (ps : List (Packet slotCount)) :
    Story ps (Feed.start k (ps.flatMap Packet.lines)) (ps.flatMap Packet.beats) .none ps [] where
  signals := h.signals
  framed := h.framed
  ahead := .between ps h.expecting
  phase := by
    rw [show (Feed.start k (ps.flatMap Packet.lines)).kernel.front.disp.inflight = [] from h.empty]
    exact .apart .none [] ps h.seenHeader (by simp) h.state
  stream := by
    rw [show (Feed.start k (ps.flatMap Packet.lines)).kernel.front.disp.inflight = [] from h.empty]
    rfl
  packets := rfl
  accepted := rfl
  answered := rfl
  legal v hv := by cases hv

theorem story_edge {ps : List (Packet slotCount)} {y : Feed n slotCount} {bs : List (RxBeat Unit)}
    {cur : Stage slotCount} {qs : List (Packet slotCount)} {vs : List (Visit slotCount)}
    (h : Story ps y bs cur qs vs) (hfit : y.Fits) (i : FeedIn) :
    ∃ bs' cur' qs' vs', Story ps (y.clock i) bs' cur' qs' vs' := by
  obtain ⟨bs', hahead, hrest⟩ := stream_edge hfit h.ahead i
  have hhead : ∀ b, y.kernel.head = some b →
      ∃ tl, y.kernel.front.disp.inflight ++ bs = b :: tl := by
    intro b hb
    obtain ⟨tl, htl⟩ := List.head?_eq_some_iff.mp (StreamFifo.head_of_head? hb)
    exact ⟨_, by rw [Disp.inflight, htl]; rfl⟩
  obtain ⟨cur', qs', ws, hphase, hset⟩ :=
    phase_edge (i := y.kernelIn i) h.signals h.framed rfl h.phase hhead hrest
  refine ⟨bs', cur', qs', vs ++ ws, ?_, ?_, hahead, hphase, ?_, ?_, ?_, ?_, ?_⟩
  · exact signals_clock h.signals (y.kernel.ctrlIn (y.kernelIn i))
  · exact framed_clock h.framed (y.kernel.ctrlIn (y.kernelIn i))
  · show (y.handed ++ _) ++ _ = _
    rw [List.append_assoc, hrest]
    exact h.stream
  · rw [h.packets, hset.packets, List.map_append, List.append_assoc]
  · show y.accepted ++ y.kernel.lineTaken = _
    rw [h.accepted, List.append_assoc, hset.taken, List.flatMap_append, List.append_assoc]
  · show y.answered ++ y.kernel.answerTaken (y.kernelIn i) = _
    rw [h.answered, hset.answered, List.map_append]
  · intro v hv
    rcases List.mem_append.mp hv with hv | hv
    · exact h.legal v hv
    · exact hset.legal v hv

theorem story_reachable {mem : Mem 33} {ps : List (Packet slotCount)} {y : Feed n slotCount}
    (hr : Reachable Feed.clock (fun y _ => y.Fits)
      (Feed.init n slotCount mem (ps.flatMap Packet.lines)) y) :
    ∃ bs cur qs vs, Story ps y bs cur qs vs :=
  hr.invariant (P := fun y => ∃ bs cur qs vs, Story ps y bs cur qs vs)
    ⟨_, _, _, _, story_start (idle_reset mem) ps⟩
    fun _ i ⟨_, _, _, _, h⟩ hfit => story_edge h hfit i

/-- The controller is idle while no command of the current packet has been taken. -/
theorem phase_idle {k : Kernel n slotCount} {cur : Stage slotCount} {rest : List (RxBeat Unit)}
    {qs : List (Packet slotCount)} (h : Phase k cur rest qs) :
    k.sys.ctrl.state = .idle ↔ cur.taken = [] := by
  cases h with
  | apart cur as qs _ _ hc =>
      cases cur with
      | none => exact iff_of_true hc rfl
      | opened p => exact hc.elim
      | busy p j => exact iff_of_false hc.1.not_idle (List.cons_ne_nil _ _)
  | opened p qs _ _ _ hidle => exact iff_of_true hidle rfl
  | inside p j qs _ _ _ hb => exact iff_of_false hb.not_idle (List.cons_ne_nil _ _)
  | draining p d qs _ _ _ hidle => exact iff_of_true hidle rfl

/-- While no packet is being served, controller beats are taken off the stream and go nowhere. -/
theorem phase_none {k : Kernel n slotCount} {rest : List (RxBeat Unit)}
    {qs : List (Packet slotCount)} (h : Phase k .none rest qs) :
    k.forwardLine = false ∧ (k.reconfSelected = true → k.reconfReady = true) := by
  generalize hcur : Stage.none = cur at h
  cases h with
  | apart cur as qs hseen _ hc =>
      subst hcur
      refine ⟨forward_unseen hseen, fun hs => ?_⟩
      rw [Kernel.reconfReady, Kernel.headerLine, hs, hseen]
      exact decide_eq_true hc
  | opened p => cases hcur
  | inside p j => cases hcur
  | draining p d qs _ hseen hdrain =>
      refine ⟨by rw [Kernel.forwardLine, hdrain]; exact Bool.and_false _, fun _ => ?_⟩
      rw [Kernel.reconfReady, Kernel.headerLine, hseen, hdrain]
      simp

/-- A packet being served has given no more lines than its command needs, and has the line its
    controller waits for. -/
theorem phase_busy {k : Kernel n slotCount} {p : Packet slotCount} {j : Nat}
    {rest : List (RxBeat Unit)} {qs : List (Packet slotCount)} (h : Phase k (.busy p j) rest qs)
    (hp : p.isController = true) :
    j ≤ payloadLines slotCount p.command ∧
      (k.sys.ctrl.state = .writeWaitData → j < p.extra.length) := by
  have hneed := (p.body (isController_iff.mp hp)).2
  have hbusy : Busy p.command j k.sys.ctrl := by
    cases h with
    | apart cur as qs _ _ hc => exact hc.1
    | inside p j qs _ _ _ hb => exact hb
  exact ⟨hbusy.lines_le.1, fun e => Nat.lt_of_lt_of_le (hbusy.lines_le.2 e) hneed⟩

/-- **Single-packet controller requests are answered exactly once.** Packets that are complete
    requests arrive in any order, with any gaps, any readiness of the slots and any behaviour of the
    controller's other pins; the dispatcher's FIFO does not overflow. Then at any time the packets
    answered and the one being served are the first controller packets, in order; the beats on the
    controller port are their responses, one each, tagged with 64 and the packet's own session; the
    lines handshaken into the controller are, packet by packet, its command and the first of its
    further lines, no more than its command needs and all of these if it succeeded; while the
    controller is idle every command taken has been answered, and while no packet is being served
    controller lines are taken off the stream and go nowhere; and every line leaves the dispatcher
    once, in order. -/
theorem packets_answered_once {mem : Mem 33} {ps : List (Packet slotCount)} {y : Feed n slotCount}
    (hr : Reachable Feed.clock (fun y _ => y.Fits)
      (Feed.init n slotCount mem (ps.flatMap Packet.lines)) y) :
    ∃ (vs : List (Visit slotCount)) (cur : Stage slotCount),
      vs.map (·.packet) ++ cur.packets <+: controllers ps ∧
      y.answered = vs.map Visit.answer ∧
      y.accepted = vs.flatMap Visit.taken ++ cur.taken ∧
      (∀ v ∈ vs, v.Legal) ∧
      (∀ p j, cur = .busy p j → j ≤ payloadLines slotCount p.command ∧
        (y.kernel.sys.ctrl.state = .writeWaitData → j < p.extra.length)) ∧
      (y.kernel.sys.ctrl.state = .idle ↔ cur.taken = []) ∧
      (cur = .none → y.kernel.forwardLine = false ∧
        (y.kernel.reconfSelected = true → y.kernel.reconfReady = true)) ∧
      y.handed <+: ps.flatMap Packet.beats := by
  obtain ⟨bs, cur, qs, vs, h⟩ := story_reachable hr
  refine ⟨vs, cur, ⟨controllers qs, ?_⟩, h.answered, h.accepted, h.legal, ?_, phase_idle h.phase,
    ?_, ⟨_, h.stream⟩⟩
  · rw [List.append_assoc]
    exact h.packets.symm
  · rintro p j rfl
    refine phase_busy h.phase ?_
    have hmem : p ∈ controllers ps := by
      rw [h.packets]
      exact List.mem_append_right _ (List.mem_append_left _ (List.mem_singleton_self p))
    exact (List.mem_filter.mp hmem).2
  · rintro rfl
    exact phase_none h.phase

end Run

section Source

attribute [local instance] axisDataFifos

/-- A `READ_HBM` of an unaligned address with a surplus line behind it. -/
def surplusPacket : Packet 2 where
  length := 192
  session := 7
  header := (0x00ab#16 ++ 0xffff#16 ++ 128#32 ++ BitVec.allOnes 448).cast header_width
  rest := [unalignedRead, 0]
  first := by decide +kernel
  fits := by decide +kernel
  body := by decide +kernel

/-- Its lines back to back, then edges at which the response port is ready. -/
def surplusRun : List FeedIn :=
  List.replicate 3 ⟨true, true, In.low⟩ ++
    List.replicate 8 ⟨false, true, { In.low with mAxisTready := true }⟩

/-- The feed of the packet, twice. -/
def surplusFeed : Feed 2 2 :=
  run Feed.clock (Feed.init 2 2 countingMem ([surplusPacket, surplusPacket].flatMap Packet.lines))
    surplusRun

theorem packets_answered_once_surplus :
    surplusFeed.answered = [(⟨64, 7⟩, .status .align)] ∧
    ∃ (vs : List (Visit 2)) (cur : Stage 2),
      vs.map (·.packet) ++ cur.packets <+: controllers [surplusPacket, surplusPacket] ∧
      surplusFeed.answered = vs.map Visit.answer ∧
      surplusFeed.accepted = vs.flatMap Visit.taken ++ cur.taken := by
  refine ⟨by decide +kernel, ?_⟩
  have hr : Reachable Feed.clock (fun y _ => y.Fits) (Feed.init 2 2 countingMem
      ([surplusPacket, surplusPacket].flatMap Packet.lines)) surplusFeed :=
    Reachable.of_run surplusRun (by decide +kernel)
  obtain ⟨vs, cur, h1, h2, h3, -⟩ := packets_answered_once hr
  exact ⟨vs, cur, h1, h2, h3⟩

end Source

end Frac.PktLogic
