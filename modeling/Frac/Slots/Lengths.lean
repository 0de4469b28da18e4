/-
  File:      Frac/Slots/Lengths.lean
  Subject:   The length a response announces: from the client's header through dispatcher, scheduler
             and slot to `pkt_sender.v`, for every request `sw/app` builds.

  * `slotBeats_request` -- the beats of a request as a slot gets them;
  * `txMetadata` -- what `pkt_sender` hands to the TCP stack;
  * `announced_lengths` -- **every slot module answers with one frame and announces its length**.
-/
import Frac.Client.Requests
import Frac.Slots.Echo
import Frac.Slots.Norm
import Frac.Slots.TopK

namespace Frac.Slots

open Bits Client Clocked Reassembly

/-! ## 1. What `pkt_sender` announces -/

/-- The words `pkt_sender` puts into `fifo_metadata`: the meta of every beat with `tlast`. -/
def txMetadata (bs : List SlotBeat) : List (BitVec 32) :=
  (bs.filter (·.tlast)).map fun b => b.bytes ++ b.session

/-- **One frame of `length` beats, announced with its length and session.** -/
def Announced (length : Nat) (session : BitVec 16) (bs : List SlotBeat) : Prop :=
  IsFrame length session bs ∧ txMetadata bs = [BitVec.ofNat 16 (64 * length) ++ session]

theorem frame_announced {length : Nat} {session : BitVec 16} {bs : List SlotBeat}
    (h : IsFrame length session bs) : Announced length session bs := by
  refine ⟨h, ?_⟩
  obtain ⟨-, body, last, rfl, hbody, hlast, hbytes, hsession⟩ := h
  have hnone : body.filter (·.tlast) = [] :=
    List.filter_eq_nil_iff.mpr fun b hb => by rw [hbody b hb]; exact Bool.false_ne_true
  have hword : last.bytes = BitVec.ofNat 16 (64 * length) := by
    rw [← hbytes, BitVec.ofNat_toNat, BitVec.setWidth_eq]
  rw [txMetadata, List.filter_append, hnone, List.nil_append, List.filter_cons_of_pos hlast,
    List.filter_nil, List.map_singleton, hword, hsession]

/-! ## 2. The beats of a request -/

theorem outBeats_getElem? {τ : Type} (workload size connid : BitVec 16) (xs : List (BitVec 512 × τ))
    (k : Nat) :
    (outBeats workload size connid xs)[k]? = xs[k]?.map fun x =>
      ⟨decide (k + 1 = xs.length), 0, workload, size, connid, decide (k + 1 = xs.length), x.1, x.2⟩ := by
  induction xs generalizing k with
  | nil => rfl
  | cons x xs ih =>
      cases k with
      | zero =>
          have hone : xs.isEmpty = decide (0 + 1 = (x :: xs).length) := by
            cases xs with
            | nil => rfl
            | cons x' xs => exact (decide_eq_false (by simp)).symm
          rw [outBeats, List.getElem?_cons_zero, List.getElem?_cons_zero, hone]
          rfl
      | succ k =>
          rw [outBeats, List.getElem?_cons_succ, List.getElem?_cons_succ, ih, List.length_cons,
            decide_eq_decide.mpr (Nat.add_right_cancel_iff (m := k + 1) (k := xs.length) (n := 1)).symm]

/-- The lines of a request as a slot gets them. -/
theorem slotBeats_payload (q : AppRequest Unit) :
    (slotBeats q).map (·.payload) = q.packets.flatten.map (·.1) := by
  have hout : ∀ (w s c : BitVec 16) (xs : List (BitVec 512 × Unit)),
      ((outBeats w s c xs).map SlotBeat.ofQueue).map (·.payload) = xs.map (·.1) := by
    intro w s c xs
    induction xs with
    | nil => rfl
    | cons x xs ih => exact congrArg (x.1 :: ·) ih
  exact hout ..

/-- **The beats of a request as a slot gets them.** -/
theorem slotBeats_request {q : AppRequest Unit} {d : Nat} (hlen : q.packets.flatten.length = d + 1)
    (hhead : (headerLine q.packets).extractLsb' 0 448 = BitVec.allOnes 448) :
    IsRequest d q.connid (slotBeats q) := by
  have hget : ∀ k, (slotBeats q)[k]? = q.packets.flatten[k]?.map fun x =>
      (⟨BitVec.ofNat 16 (64 * (d + 1)), q.connid, decide (k = d), x.1⟩ : SlotBeat) := by
    intro k
    rw [slotBeats, List.getElem?_map, AppRequest.beats, outBeats_getElem?, Option.map_map, hlen]
    refine congrArg (Option.map · _) (funext fun x => ?_)
    rw [Function.comp_apply, SlotBeat.ofQueue]
    congr 1
    exact decide_eq_decide.mpr Nat.add_right_cancel_iff
  have hmost := q.atMost
  refine ⟨?_, fun {k b} hb => ?_, fun {b} hb => ?_⟩
  · have hlines := congrArg List.length (slotBeats_payload q)
    rw [List.length_map, List.length_map] at hlines
    exact hlines.trans hlen
  · rw [hget] at hb
    obtain ⟨x, -, rfl⟩ := Option.map_eq_some_iff.mp hb
    refine ⟨?_, rfl, rfl⟩
    show (BitVec.ofNat 16 _).toNat = _
    rw [BitVec.toNat_ofNat]
    exact Nat.mod_eq_of_lt (by omega)
  · rw [hget] at hb
    obtain ⟨x, hx, rfl⟩ := Option.map_eq_some_iff.mp hb
    have hline : headerLine q.packets = x.1 := by
      rw [headerLine, List.head?_eq_getElem?, hx]
      rfl
    rw [SlotBeat.isHeader, ← hline, hhead]
    exact beq_self_eq_true _

/-! ## 3. The requests of `sw/app` -/

/-- The segments of a request as packets of lines. -/
def packets (req : App.Request) : List (List (BitVec 512 × Unit)) :=
  req.segments.map fun seg => (lines 64 seg).map fun l => (l, ())

section Built

variable {workload : BitVec 16} {payload : List (BitVec 8)} {topConfig : BitVec 16} {req : App.Request}

theorem segment_lines (h : App.Built workload payload topConfig req) {seg : List (BitVec 8)}
    (hseg : seg ∈ req.segments) :
    seg.length % 64 = 0 ∧ 64 ≤ seg.length ∧ seg.length ≤ 4096 := by
  have hok := h.accepted seg hseg
  rw [App.segmentOk, Bool.and_eq_true, Bool.and_eq_true, beq_iff_eq, decide_eq_true_eq,
    decide_eq_true_eq] at hok
  exact ⟨hok.1.1, hok.1.2, hok.2⟩

theorem packets_flatten (h : App.Built workload payload topConfig req) :
    (packets req).flatten =
      (line (App.buildHeader (requestLineBytes + payload.length) workload req.flags topConfig) ::
        lines 64 payload).map fun l => (l, ()) := by
  have hlen : (App.buildHeader (requestLineBytes + payload.length) workload req.flags topConfig).length =
      64 := length_header ..
  rw [line, ← lines_append (by decide) hlen, ← h.bytes,
    lines_flatten (by decide) fun seg hseg => (segment_lines h hseg).1, List.map_flatten, List.map_map]
  rfl

theorem packets_length (h : App.Built workload payload topConfig req) :
    (packets req).flatten.length = req.dataLines + 1 := by
  have hwhole := h.whole
  rw [requestLineBytes] at hwhole
  rw [packets_flatten h, List.length_map, List.length_cons, length_lines]
  omega

theorem packets_header (h : App.Built workload payload topConfig req) :
    headerLine (packets req) =
      line (App.buildHeader (requestLineBytes + payload.length) workload req.flags topConfig) := by
  rw [headerLine, packets_flatten h]
  rfl

theorem packets_cut (h : App.Built workload payload topConfig req) :
    ∀ p ∈ packets req, 1 ≤ p.length ∧ p.length ≤ 64 := by
  intro p hp
  obtain ⟨seg, hseg, rfl⟩ := List.mem_map.mp hp
  obtain ⟨h1, h2, h3⟩ := segment_lines h hseg
  rw [List.length_map, length_lines]
  omega

theorem packets_atLeast (h : App.Built workload payload topConfig req) : 1 ≤ (packets req).flatten.length := by
  rw [packets_length h]
  omega

theorem packets_atMost (h : App.Built workload payload topConfig req) (hl : req.totalBytes ≤ 64 * 512) :
    (packets req).flatten.length ≤ 512 := by
  have hwhole := h.whole
  have htotal := h.total
  rw [requestLineBytes] at hwhole htotal
  rw [packets_length h]
  omega

theorem packets_first (h : App.Built workload payload topConfig req) :
    (headerLine (packets req)).getLsbD 480 = true := by
  rw [packets_header h]
  exact (header_flag _ _ _ _ (by decide)).trans h.first

theorem packets_last (h : App.Built workload payload topConfig req)
    (hlast : (headerLine (packets req)).getLsbD 481 = true) : (packets req).length = 1 := by
  rw [packets_header h] at hlast
  rw [packets, List.length_map]
  exact h.last ((header_flag _ _ _ _ (by decide : 1 < 2)).symm.trans hlast)

theorem packets_size (h : App.Built workload payload topConfig req) :
    (headerLine (packets req)).extractLsb' 448 32 = BitVec.ofNat 32 (64 * (packets req).flatten.length) := by
  have hwhole := h.whole
  rw [requestLineBytes] at hwhole
  rw [packets_header h, packets_length h]
  refine BitVec.eq_of_toNat_eq ?_
  rw [header_size, BitVec.toNat_ofNat, requestLineBytes]
  congr 1
  omega

theorem packets_workload (h : App.Built workload payload topConfig req) (hw : workload ≠ reconfWorkloadID) :
    (headerLine (packets req)).extractLsb' 496 16 ≠ reconfApp := by
  rw [packets_header h, header_workload]
  exact hw

/-- A request of `sw/app` on a session, as the device gets it. -/
def deliver (h : App.Built workload payload topConfig req) (session : BitVec 16)
    (hs : session ≠ BitVec.allOnes 16) (hw : workload ≠ reconfWorkloadID)
    (hl : req.totalBytes ≤ 64 * 512) : AppRequest Unit where
  connid := session
  packets := packets req
  session := hs
  cut := packets_cut h
  atLeast := packets_atLeast h
  atMost := packets_atMost h hl
  first := packets_first h
  last := packets_last h
  size := packets_size h
  workload := packets_workload h hw

/-- The header line as the slot modules look for it. -/
theorem packets_ones (h : App.Built workload payload topConfig req) :
    (headerLine (packets req)).extractLsb' 0 448 = BitVec.allOnes 448 := by
  rw [packets_header h]
  exact header_ones ..

end Built

/-! ## 4. Answers -/

section Answers

variable [FifoKind]

/-- **A slot module answers a request**: sent alone to any idle device and slot, with any gaps between
    the lines and any behaviour around the slot, once the lines are sent and enough edges held nothing
    back, the slot has sent exactly what it has to and is idle again. -/
def Answers (n : Nat) (M : SlotModule) (q : AppRequest Unit) (Done : List SlotBeat → Prop) : Prop :=
  ∃ enough, ∀ (y : SegSys n Unit) (s : M.State) (is js : List (DeviceIn M)),
    Reachable SegSys.clock SegSys.Paced (SegSys.init n Unit) y → y.todo = [] → y.out = y.due →
    M.Idle s → (run Device.edge (Device.start y s q) is).seg.todo = [] →
    enough ≤ count Device.edge Device.willing (run Device.edge (Device.start y s q) is) js →
    Done (run Device.edge (Device.start y s q) (is ++ js)).sent ∧
      M.Idle (run Device.edge (Device.start y s q) (is ++ js)).slot

theorem answers_of_service {n : Nat} (h0 : 0 < n) (hn : n < 256) {M : SlotModule}
    {q : AppRequest Unit} {Done : List SlotBeat → Prop} (S : Service M (slotBeats q) Done) :
    Answers n M q Done :=
  ⟨fifoDepth + 15 + 3 * FifoKind.latency + S.bound, fun _ _ is js hr htodo hout hs hsent henough =>
    device_serves S h0 hn hr htodo hout hs is js hsent henough⟩

theorem service_answers {n : Nat} (h0 : 0 < n) (hn : n < 256) {M : SlotModule} {q : AppRequest Unit}
    {length : Nat} {session : BitVec 16} (S : Service M (slotBeats q) (IsFrame length session)) :
    Answers n M q (Announced length session) :=
  answers_of_service h0 hn (S.mono fun _ => frame_announced)

/-- **Every response's announced length is true**: whatever request `sw/app` builds, of at most 512
    lines, for an application workload and on a session, each slot module answers it with one frame and
    `pkt_sender` announces the length of that frame on that session. -/
theorem announced_lengths {n : Nat} (h0 : 0 < n) (hn : n < 256) {workload : BitVec 16}
    {payload : List (BitVec 8)} {topConfig : BitVec 16} {singleSegment : Bool} {req : App.Request}
    (hreq : App.buildRequest workload payload topConfig singleSegment = .ok req)
    {session : BitVec 16} (hs : session ≠ 0xFFFF) (hw : workload ≠ 0x00ab)
    (hl : req.totalBytes ≤ 64 * 512) :
    ∃ q : AppRequest Unit, q.connid = session ∧ q.packets = packets req ∧
      Answers n patternSlot q (Announced (req.dataLines + 1) session) ∧
      Answers n orSlot q (Announced (req.dataLines + 1) session) ∧
      Answers n topK q (Announced 1 session) ∧
      (1 ≤ req.dataLines → Answers n logSlot q (Announced req.dataLines session)) ∧
      (1 ≤ req.dataLines → req.dataLines ≤ 256 →
        Answers n normSlot q (Announced req.dataLines session)) := by
  have hbuilt := App.buildRequest_ok hreq
  have hbeats : IsRequest req.dataLines session (slotBeats (deliver hbuilt session hs hw hl)) :=
    slotBeats_request (q := deliver hbuilt session hs hw hl) (packets_length hbuilt)
      (packets_ones hbuilt)
  refine ⟨deliver hbuilt session hs hw hl, rfl, rfl, ?_, ?_, ?_, fun hd => ?_, fun hd hd' => ?_⟩
  · exact service_answers h0 hn (echoService hbeats id fun _ => ⟨rfl, rfl, rfl⟩)
  · exact service_answers h0 hn (echoService hbeats _ fun _ => ⟨rfl, rfl, rfl⟩)
  · exact service_answers h0 hn (topKService hbeats)
  · exact service_answers h0 hn (logService hbeats hd)
  · exact service_answers h0 hn (normService hbeats hd hd')

end Answers

section Source

attribute [local instance] axisDataFifos

/-- A header and one line of zeros, in two segments. -/
def oneLine : App.Request where
  workload := 1
  flags := reqFlagFirst
  topConfig := defaultTopConfig
  dataLines := 1
  totalBytes := 128
  segments := [App.buildHeader 128 1 reqFlagFirst defaultTopConfig, List.replicate 64 0]

theorem announced_lengths_one_line :
    ∃ q : AppRequest Unit, q.connid = 5 ∧ q.packets = packets oneLine ∧
      Answers 3 patternSlot q (Announced 2 5) ∧ Answers 3 orSlot q (Announced 2 5) ∧
      Answers 3 topK q (Announced 1 5) ∧ Answers 3 logSlot q (Announced 1 5) ∧
      Answers 3 normSlot q (Announced 1 5) := by
  have hreq : App.buildRequest 1 (List.replicate 64 0) defaultTopConfig false = .ok oneLine := rfl
  obtain ⟨q, h1, h2, h3, h4, h5, h6, h7⟩ := announced_lengths (n := 3) (by decide) (by decide) hreq
    (by decide : (5 : BitVec 16) ≠ 0xFFFF) (by decide) (by decide)
  exact ⟨q, h1, h2, h3, h4, h5, h6 (by decide), h7 (by decide) (by decide)⟩

end Source

end Frac.Slots
