/-
  File:      Frac/Client/Framing.lean
  Subject:   What the clients frame is what the device decodes: header and command lines field by
             field, the cut into segments, and the query line on its way back.

  * `HeaderAgrees`, `CommandAgrees` -- a line of the client, as dispatcher, slots and controller read
    it;
  * `Recognises` -- **the dispatcher takes the first line of a request for a header, no other, and
    expects the next one after its last line and not before**; `recognises_opens` -- it does, where
    the header counts the bytes of its packets;
  * `buildRequest_default` -- `buildRequest` succeeds; `client_framing_agrees` -- all of it.
-/
import Frac.Client.Upload
import Frac.Reconf.QueryStatus
import Frac.Slots.Lengths

namespace Frac.Client

open Bits Clocked PktLogic Reassembly Reconf Slots

/-! ## 1. Lines -/

/-- **A header line as the device reads it**: its fields in the dispatcher, and in the slots that look
    for a header line the prefix; an idle `top_k` takes its mask. -/
structure HeaderAgrees (totalSize : Nat) (workloadID : BitVec 16) (flags : BitVec 8)
    (topConfig : BitVec 16) : Prop where
  dispatcher : ∀ l : DispLine Unit,
    l.payload = line (App.buildHeader totalSize workloadID flags topConfig) →
      l.headerPacketSize.toNat = totalSize ∧ l.requestFirst = flags.getLsbD 0 ∧
        l.requestLast = flags.getLsbD 1 ∧ l.headerWorkload = workloadID
  slots : ∀ b : SlotBeat,
    b.payload = line (App.buildHeader totalSize workloadID flags topConfig) →
      b.isHeader = true ∧ ∀ (s : TopK) (mTready : Bool), s.Idle →
        (s.edge (some b) mTready).kmask = App.effectiveTopConfig topConfig flags

theorem header_agrees {totalSize : Nat} (h : totalSize < 2 ^ 32) (workloadID : BitVec 16)
    (flags : BitVec 8) (topConfig : BitVec 16) :
    HeaderAgrees totalSize workloadID flags topConfig where
  dispatcher l hl := by
    rw [DispLine.headerPacketSize, DispLine.requestFirst, DispLine.requestLast,
      DispLine.headerWorkload, hl]
    refine ⟨?_, header_flag _ _ _ _ (b := 0) (by decide), header_flag _ _ _ _ (b := 1) (by decide),
      header_workload _ _ _ _⟩
    rw [header_size, Nat.mod_eq_of_lt h]
  slots b hb := by
    have hhead : b.isHeader = true := by
      rw [SlotBeat.isHeader, hb, header_ones, beq_self_eq_true]
    refine ⟨hhead, fun s mTready hs => ?_⟩
    have hready : s.tready = true := by rw [TopK.tready, hs.unpacking, hs.respValid]; rfl
    rw [TopK.edge, hs.unpacking, hs.respValid, hready]
    simp only [if_true, Bool.false_and, Bool.false_eq_true, if_false, TopK.take, hs.frameActive, hhead,
      Bool.not_false, Bool.true_and, hb]
    exact header_mask ..

/-- **A command line as the controller reads it.** -/
def CommandAgrees (opcode slotID : BitVec 8) (hbmAddr size : BitVec 64) : Prop :=
  let t := line (Pr.buildReconfCommand opcode slotID hbmAddr.toNat size.toNat)
  cmdOpcode t = opcode ∧ cmdSlotId t = slotID ∧ cmdAddr t = hbmAddr ∧ cmdSize t = size

theorem command_agrees (opcode slotID : BitVec 8) (hbmAddr size : BitVec 64) :
    CommandAgrees opcode slotID hbmAddr size := by
  have hof := command_ofLine opcode slotID hbmAddr.toNat size.toNat
  rw [Nat.mod_eq_of_lt hbmAddr.isLt, Nat.mod_eq_of_lt size.isLt] at hof
  refine ⟨(cmdOpcode_eq_iff _ _).mpr (by rw [hof]), BitVec.eq_of_toNat_eq ?_,
    BitVec.eq_of_toNat_eq ?_, BitVec.eq_of_toNat_eq ?_⟩
  · rw [cmdSlotId_toNat, hof]
  · rw [cmdAddr_toNat, hof]
  · rw [cmdSize_toNat, hof]

/-! ## 2. What the dispatcher takes for a header -/

/-- An edge of the dispatcher: a line or none, and the readiness behind it. -/
abbrev Heard := Option (DispLine Unit) × Bool

section Hear

variable [FifoKind]

def hear (d : Disp Unit) (es : List Heard) : Disp Unit := run (fun d e => d.edge e.1 e.2) d es

/-- The lines that came. -/
def heard (es : List Heard) : List (DispLine Unit) := es.filterMap (·.1)

/-- **A request is recognised**: with any gaps, the dispatcher takes its first line for a header and
    no other, and expects a header again after its last line and not before. -/
def Recognises (ls : List (DispLine Unit)) : Prop :=
  ∀ (d : Disp Unit), d.expectingHeader = true → ∀ (es : List Heard) (post : List (DispLine Unit)),
    heard es ++ post = ls →
      (hear d es).expectingHeader = ((heard es).isEmpty || post.isEmpty) ∧
        ∀ l ∈ post.head?, (hear d es).configHeader l = (heard es).isEmpty

/-- A header that counts the bytes of its packets. -/
structure Opens (r : Label) (l : DispLine Unit) (ls : List (DispLine Unit)) : Prop where
  first : l.requestFirst = true
  last : l.requestLast = true → l.tlast = true → ls = []
  bytes : l.headerRequestBytes.toNat = packetBytes ((l :: ls).map r.rx)
  rest : r.Rest ((l :: ls).map r.rx)

/-- Within a request the bytes to go are those of the lines to come. -/
theorem hear_within {r : Label} {d : Disp Unit} {post : List (DispLine Unit)} {es : List Heard}
    (he : d.expectingHeader = (heard es ++ post).isEmpty)
    (hb : heard es ++ post ≠ [] →
      d.requestBytesRemaining.toNat = packetBytes ((heard es ++ post).map r.rx))
    (hr : r.Rest ((heard es ++ post).map r.rx)) :
    (hear d es).expectingHeader = post.isEmpty := by
  induction es generalizing d with
  | nil => exact he
  | cons e es ih =>
      obtain ⟨l, ready⟩ := e
      cases l with
      | none => exact ih he hb hr
      | some l =>
          have hcons : heard ((some l, ready) :: es) ++ post = l :: (heard es ++ post) := rfl
          rw [hcons] at he hb hr
          have hexp : d.expectingHeader = false := he
          have hconf : d.configHeader l = false := by rw [Disp.configHeader, hexp]; rfl
          have hactive : (d.activeBytes l).toNat = packetBytes ((l :: (heard es ++ post)).map r.rx) := by
            rw [Disp.activeBytes, hconf]
            exact hb (List.cons_ne_nil _ _)
          have hlast : (d.configHeader l && l.requestLast) = true → l.tlast = true →
              heard es ++ post = [] := fun h => by rw [hconf] at h; cases h
          obtain ⟨h1, h2⟩ := track_active hr hactive hlast fun _ => hexp
          exact ih h1 h2 (Label.Rest.tail hr)

theorem recognises_opens {r : Label} {l : DispLine Unit} {ls : List (DispLine Unit)}
    (h : Opens r l ls) : Recognises (l :: ls) := by
  have key : ∀ (es : List Heard) (d : Disp Unit) (post : List (DispLine Unit)),
      d.expectingHeader = true → heard es ++ post = l :: ls →
        (hear d es).expectingHeader = ((heard es).isEmpty || post.isEmpty) := by
    intro es
    induction es with
    | nil => exact fun d post hd _ => hd
    | cons e es ih =>
        intro d post hd hl
        obtain ⟨l', ready⟩ := e
        cases l' with
        | none => exact ih (d.edge none ready) post hd hl
        | some l' =>
            obtain ⟨rfl, rfl⟩ := List.cons.inj hl
            have hconf : d.configHeader l' = true := by rw [Disp.configHeader, hd, h.first]; rfl
            have hactive : (d.activeBytes l').toNat =
                packetBytes ((l' :: (heard es ++ post)).map r.rx) := by
              rw [Disp.activeBytes, hconf]
              exact h.bytes
            obtain ⟨h1, h2⟩ := track_active h.rest hactive
              (fun hlast => h.last (Bool.and_eq_true_iff.mp hlast).2)
              (fun hc => by rw [hconf] at hc; cases hc)
            exact hear_within (d := d.edge (some l') ready) h1 h2 (Label.Rest.tail h.rest)
  intro d hd es post hl
  refine ⟨key es d post hd hl, fun l' hl' => ?_⟩
  obtain ⟨post', hpost⟩ := List.head?_eq_some_iff.mp hl'
  have hexp := key es d post hd hl
  rw [hpost] at hexp hl
  rw [Disp.configHeader, hexp]
  cases hes : heard es with
  | nil =>
      rw [hes] at hl
      obtain ⟨rfl, -⟩ := List.cons.inj hl
      exact h.first
  | cons l'' ls'' => rfl

end Hear

/-! ## 3. Requests -/

section App

variable {workload : BitVec 16} {payload : List (BitVec 8)} {topConfig : BitVec 16} {req : App.Request}

/-- The segments of a request, each a packet. -/
def arriving (session : BitVec 16) (req : App.Request) : List (DispLine Unit) :=
  req.segments.flatMap (packetOf session)

theorem arriving_packets (h : App.Built workload payload topConfig req) (session : BitVec 16) :
    arriving session req =
      (packets req).flatMap fun p => packetLines session (BitVec.ofNat 16 (64 * p.length)) p := by
  rw [arriving, packets, List.flatMap_map]
  refine List.flatMap_congr fun seg hseg => ?_
  obtain ⟨hmod, -, -⟩ := segment_lines h hseg
  have hlen : 64 * ((lines 64 seg).map fun l => (l, ())).length = seg.length := by
    rw [List.length_map, length_lines]
    omega
  rw [hlen]
  rfl

theorem packets_cut (h : App.Built workload payload topConfig req) :
    ∀ p ∈ packets req, 1 ≤ p.length ∧ p.length ≤ 64 := by
  intro p hp
  obtain ⟨seg, hseg, rfl⟩ := List.mem_map.mp hp
  obtain ⟨h1, h2, h3⟩ := segment_lines h hseg
  rw [List.length_map, length_lines]
  omega

/-- **A request of `sw/app` opens with its header**, which counts the bytes of its segments. -/
theorem app_opens (h : App.Built workload payload topConfig req) (session : BitVec 16)
    (hw : workload ≠ reconfApp) (ht : requestLineBytes + payload.length < 2 ^ 32) :
    ∃ r l ls, arriving session req = l :: ls ∧ Opens r l ls := by
  let r : Label := ⟨session, workload, 0⟩
  obtain ⟨hrest, hbytes, hcontent⟩ := packets_spec r (packets req) (packets_cut h)
  rw [← arriving_packets h] at hrest hbytes hcontent
  rw [packets_flatten h] at hcontent
  cases hl : arriving session req with
  | nil => rw [hl] at hcontent; cases hcontent
  | cons l ls =>
      rw [hl] at hrest hbytes hcontent
      have hpay : l.payload = line (App.buildHeader (requestLineBytes + payload.length) workload
          req.flags topConfig) := congrArg Prod.fst (List.cons.inj hcontent).1
      obtain ⟨hsize, hfirst, hlast, hwork⟩ := (header_agrees ht workload req.flags topConfig).dispatcher
        l hpay
      refine ⟨r, l, ls, rfl, hfirst.trans h.first, fun hl1 htl => ?_, ?_, hrest⟩
      · obtain ⟨seg, hseg⟩ := List.length_eq_one_iff.mp (h.last (hlast.symm.trans hl1))
        rw [arriving, hseg, List.flatMap_singleton, packetOf] at hl
        cases hx : (lines 64 seg).map fun t => (t, ()) with
        | nil => rw [hx] at hl; cases hl
        | cons x xs =>
            rw [hx] at hl
            obtain ⟨rfl, rfl⟩ := List.cons.inj hl
            cases xs with
            | nil => rfl
            | cons x' xs => cases htl
      · have hwhole := h.whole
        rw [requestLineBytes] at hwhole hsize
        rw [DispLine.headerRequestBytes, hwork, if_neg hw, hsize, hbytes, packets_length h]
        omega

end App

/-- **A request of the controller's client opens with its header.** -/
theorem reconf_opens (session : BitVec 16) (opcode slotID : BitVec 8) (hbmAddr size : Nat)
    {payload : List (BitVec 8)} (hwhole : payload.length % 64 = 0)
    (hshort : 128 + payload.length ≤ 4096) :
    ∃ r l ls, packetOf session (Pr.buildReconfRequest opcode slotID hbmAddr size payload) = l :: ls ∧
      Opens r l ls := by
  let r : Label := ⟨session, 0, 0⟩
  let m := (lines 64 payload).length
  let length := BitVec.ofNat 16 (128 + payload.length)
  let xs := (line (Pr.buildReconfCommand opcode slotID hbmAddr size) :: lines 64 payload).map
    fun t => (t, ())
  have hlen : length.toNat = 128 + payload.length := by
    rw [BitVec.toNat_ofNat]
    exact Nat.mod_eq_of_lt (by omega)
  have hm : 64 * m = payload.length := by
    show 64 * (lines 64 payload).length = _
    rw [length_lines]
    omega
  have hlines : packetOf session (Pr.buildReconfRequest opcode slotID hbmAddr size payload) =
      packetLines session length ((reconfHeader m, ()) :: xs) := by
    rw [packetOf, request_lines hwhole, length_request]
    rfl
  have htotal : requestLineBytes + 64 * m < 2 ^ 32 := by
    rw [requestLineBytes]
    omega
  obtain ⟨hsize, hfirst, -, hwork⟩ := (header_agrees htotal reconfWorkloadID reqFlagSingle
    defaultTopConfig).dispatcher ⟨length, session, false, reconfHeader m, ()⟩ rfl
  refine ⟨r, _, _, hlines, ?_, fun _ htl => ?_, ?_, ?_⟩
  · exact hfirst.trans (by decide)
  · cases htl
  · have hbytes : packetBytes ((packetLines session length ((reconfHeader m, ()) :: xs)).map r.rx) =
        length.toNat := packetBytes_packet (List.cons_ne_nil _ _)
    rw [packetLines, hlen] at hbytes
    rw [requestLineBytes] at hsize
    refine Eq.trans ?_ hbytes.symm
    have happ : DispLine.headerWorkload (⟨length, session, false, reconfHeader m, ()⟩ : DispLine Unit) =
        reconfApp := hwork
    show (DispLine.headerRequestBytes ⟨length, session, false, reconfHeader m, ()⟩).toNat = _
    have h64 : (64 : BitVec 32).toNat = 64 := rfl
    rw [DispLine.headerRequestBytes, if_pos happ, BitVec.toNat_add, hsize, hm, h64,
      Nat.mod_eq_of_lt (by omega)]
    omega
  · have hpos : 0 < length.toNat := by omega
    have hrest : r.Rest ((packetLines r.connid length ((reconfHeader m, ()) :: xs)).map r.rx) :=
      rest_packet hpos
    exact hrest

/-! ## 4. The query line -/

/-- What `printQueryStatus` reads out of a response. -/
structure Pr.QueryStatus where
  queryResult : BitVec 8
  reconfActive : BitVec 8
  lastSlotID : BitVec 8
  lastError : BitVec 8
  icapAvail : BitVec 8
  prdoneSeen : BitVec 8
  prerrorSeen : BitVec 8
  lastCycles : Nat
  activeCycles : Nat

def Pr.printQueryStatus (response : List (BitVec 8)) : Pr.QueryStatus where
  queryResult := response.getD 0 0
  reconfActive := response.getD 1 0
  lastSlotID := response.getD 2 0
  lastError := response.getD 3 0
  icapAvail := response.getD 4 0
  prdoneSeen := response.getD 5 0
  prerrorSeen := response.getD 6 0
  lastCycles := leNat (line response) 8 8
  activeCycles := leNat (line response) 16 8

/-- The status registers as `start_query_status` reports them. -/
def queryStatus {slotCount : Nat} (s : Ctrl slotCount) (icapAvail : Bool) : Pr.QueryStatus where
  queryResult := Err.ok.code
  reconfActive := (BitVec.ofBool s.reconfActive).setWidth 8
  lastSlotID := s.lastSlotId
  lastError := s.lastError
  icapAvail := (BitVec.ofBool icapAvail).setWidth 8
  prdoneSeen := (BitVec.ofBool s.icapPrDoneSeen).setWidth 8
  prerrorSeen := (BitVec.ofBool s.icapPrErrSeen).setWidth 8
  lastCycles := s.lastReconfCycles.toNat
  activeCycles := (if s.reconfActive then s.reconfCycles else 0).toNat

theorem query_agrees {slotCount : Nat} (s : Ctrl slotCount) (icapAvail : Bool) :
    Pr.printQueryStatus (toBytes 64 (queryStatusData s icapAvail)) = queryStatus s icapAvail := by
  obtain ⟨h0, h1, h2, h3, -, h8, h16, -⟩ := queryStatusData_fields s icapAvail
  obtain ⟨h4, h5, h6⟩ := queryStatusData_flags s icapAvail
  have hline : line (toBytes 64 (queryStatusData s icapAvail)) = queryStatusData s icapAvail :=
    ofBytes_toBytes _
  have hbyte : ∀ j < 64, (toBytes 64 (queryStatusData s icapAvail)).getD j 0 =
      byteAt (queryStatusData s icapAvail) j := fun j hj => getD_toBytes _ hj
  rw [Pr.printQueryStatus, hline, hbyte 0 (by decide), hbyte 1 (by decide), hbyte 2 (by decide),
    hbyte 3 (by decide), hbyte 4 (by decide), hbyte 5 (by decide), hbyte 6 (by decide), h0, h1, h2, h3,
    h4, h5, h6, h8, h16]
  rfl

/-! ## 5. Client and device agree -/

section Agree

variable [FifoKind]

/-- **A request of `sw/app` in the default framing**: it is built, its segments are the header and the
    payload, each of a length that is accepted, and the dispatcher recognises it. -/
def RequestAgrees (session workload : BitVec 16) (payload : List (BitVec 8)) (topConfig : BitVec 16) :
    Prop :=
  ∃ req, App.buildRequest workload payload topConfig false = .ok req ∧
    req.segments.flatten =
      App.buildHeader (requestLineBytes + payload.length) workload req.flags topConfig ++ payload ∧
    (∀ seg ∈ req.segments, seg.length % 64 = 0 ∧ 64 ≤ seg.length ∧ seg.length ≤ 4096) ∧
    Recognises (arriving session req)

theorem request_agrees (session : BitVec 16) {workload : BitVec 16} (hw : workload ≠ reconfApp)
    {payload : List (BitVec 8)} (hwhole : payload.length % 64 = 0)
    (ht : requestLineBytes + payload.length < 2 ^ 32) (topConfig : BitVec 16) :
    RequestAgrees session workload payload topConfig := by
  obtain ⟨req, hreq⟩ := App.buildRequest_default workload topConfig hwhole
  have hbuilt := App.buildRequest_ok hreq
  obtain ⟨r, l, ls, hl, hopens⟩ := app_opens hbuilt session hw ht
  refine ⟨req, hreq, hbuilt.bytes, fun seg hseg => segment_lines hbuilt hseg, ?_⟩
  rw [hl]
  exact recognises_opens hopens

theorem reconf_recognised (session : BitVec 16) (opcode slotID : BitVec 8) (hbmAddr size : Nat)
    {payload : List (BitVec 8)} (hwhole : payload.length % 64 = 0)
    (hshort : 128 + payload.length ≤ 4096) :
    Recognises (packetOf session (Pr.buildReconfRequest opcode slotID hbmAddr size payload)) := by
  obtain ⟨r, l, ls, hl, hopens⟩ := reconf_opens session opcode slotID hbmAddr size hwhole hshort
  rw [hl]
  exact recognises_opens hopens

/-- **Client framing and hardware decoding agree.** -/
theorem client_framing_agrees :
    (∀ totalSize < 2 ^ 32, ∀ workloadID flags topConfig,
      HeaderAgrees totalSize workloadID flags topConfig) ∧
    (∀ opcode slotID hbmAddr size, CommandAgrees opcode slotID hbmAddr size) ∧
    (∀ session workload payload topConfig, workload ≠ 0x00ab → payload.length % 64 = 0 →
      requestLineBytes + payload.length < 2 ^ 32 →
      RequestAgrees session workload payload topConfig) ∧
    (∀ session opcode slotID hbmAddr size payload, payload.length % 64 = 0 →
      (Pr.buildReconfRequest opcode slotID hbmAddr size payload).length ≤ 4096 →
      Recognises (packetOf session (Pr.buildReconfRequest opcode slotID hbmAddr size payload))) ∧
    ∀ (slotCount : Nat) (s : Ctrl slotCount) (icapAvail : Bool),
      Pr.printQueryStatus (toBytes 64 (queryStatusData s icapAvail)) = queryStatus s icapAvail := by
  refine ⟨fun _ ht w f c => header_agrees ht w f c, command_agrees, ?_, ?_, fun _ => query_agrees⟩
  · exact fun session w payload c hw hwhole ht => request_agrees session hw hwhole ht c
  · intro session opcode slotID hbmAddr size payload hwhole hshort
    rw [length_request] at hshort
    exact reconf_recognised session opcode slotID hbmAddr size hwhole hshort

end Agree

section Source

attribute [local instance] axisDataFifos

/-- A header and one line of zeros, in two segments. -/
theorem client_framing_agrees_line : RequestAgrees 5 1 (List.replicate 64 0) 0xffff :=
  client_framing_agrees.2.2.1 5 1 (List.replicate 64 0) 0xffff (by decide) (by decide) (by decide)

end Source

end Frac.Client
