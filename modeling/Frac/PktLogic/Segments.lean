/-
  File:      Frac/PktLogic/Segments.lean
  Subject:   Controller requests cut into packets. The dispatcher follows a request over packet
             borders by its declared bytes; the reconfiguration branch takes the first line after
             every packet border for a header.

  * `CtrlRequest` -- a controller request and one way of cutting it;
  * `openings` -- the lines the branch takes for headers; `openings_reachable` -- **what the
    controller is given and these fit into what arrived**;
  * `delivered_iff` -- **a controller request reaches the controller exactly when it is not cut** (and,
    if it has payload, is a valid write).
-/
import Frac.PktLogic.Exchange
import Frac.Client.Requests

namespace Frac.PktLogic

open Clocked Reassembly Reconf Client

variable {n slotCount : Nat}

/-! ## 1. Requests -/

/-- The header line of a controller request with `m` payload lines. -/
def reconfHeader (m : Nat) : BitVec 512 :=
  line (Pr.buildHeader (requestLineBytes + 64 * m) reconfWorkloadID reqFlagSingle)

/-- **A controller request, cut into packets of 1 to 64 lines**: header, command, and for
    `WRITE_HBM` the lines of its bytes. -/
structure CtrlRequest where
  session : BitVec 16
  command : BitVec 512
  payload : List (BitVec 512)
  packets : List (List (BitVec 512))
  sized : payload.length =
    if (Command.ofLine command).opcode = 1 then ((Command.ofLine command).size + 63) / 64 else 0
  cut : packets.flatten = reconfHeader payload.length :: command :: payload
  whole : ∀ p ∈ packets, 1 ≤ p.length ∧ p.length ≤ 64

/-- The request as it arrives. -/
def CtrlRequest.lines (q : CtrlRequest) : List (DispLine Unit) :=
  q.packets.flatMap fun p =>
    packetLines q.session (BitVec.ofNat 16 (64 * p.length)) (p.map fun t => (t, ()))

/-- **The request is delivered**: sent to an idle kernel with any gaps, it is handed to the controller
    as its command and its payload, in order, and answered once with 64 and its session, as soon as
    the controller's partners have been willing often enough. Write responses are OKAY. -/
def CtrlRequest.Delivered [FifoKind] (q : CtrlRequest) (n slotCount : Nat) : Prop :=
  ∃ enough, ∀ (k : Kernel n slotCount), k.Idle → ∀ is js : List FeedIn,
    (∀ i ∈ is ++ js, i.pins.bresp = 0) →
    (run Feed.clock (Feed.start k q.lines) is).todo = [] →
    enough ≤ js.countP (·.pins.willing) →
    (run Feed.clock (Feed.start k q.lines) (is ++ js)).accepted = q.command :: q.payload ∧
    ∃ r, (run Feed.clock (Feed.start k q.lines) (is ++ js)).answered = [(⟨64, q.session⟩, r)]

/-! ## 2. A request in one packet -/

theorem write_opcode {c : Command} (h : c.verdict slotCount = .write) : c.opcode = 1 := by
  have hop : c.operation = .write := (verdict_valid (valid_of_verdict (Or.inl h))).symm.trans h
  unfold Command.operation at hop
  split_ifs at hop with h1 h2
  exact h1

section Single

variable {q : CtrlRequest}

theorem packets_single (h : q.packets.length = 1) :
    q.packets = [reconfHeader q.payload.length :: q.command :: q.payload] := by
  obtain ⟨p, hp⟩ := List.length_eq_one_iff.mp h
  have hcut := q.cut
  rw [hp, List.flatten_singleton] at hcut
  rw [hp, hcut]

theorem payload_short (h : q.packets.length = 1) : q.payload.length + 2 ≤ 64 := by
  have hw := (q.whole _ (by rw [packets_single h]; exact List.mem_singleton_self _)).2
  exact hw

theorem payload_covers (slotCount : Nat) (q : CtrlRequest) : payloadLines slotCount q.command ≤ q.payload.length := by
  unfold payloadLines
  split_ifs with hv
  · rw [q.sized, if_pos (write_opcode hv)]
  · exact Nat.zero_le _

theorem reconfHeader_first (q : CtrlRequest) : (reconfHeader q.payload.length).getLsbD 480 = true :=
  header_flag _ _ _ _ (b := 0) (by decide)

/-- A request that is not cut is not longer than its packet. -/
theorem reconfHeader_fits (h : q.packets.length = 1) :
    (lineSize (reconfHeader q.payload.length)).toNat +
        (if lineWorkload (reconfHeader q.payload.length) = reconfApp then 64 else 0) ≤
      (BitVec.ofNat 16 (64 * (q.payload.length + 2))).toNat := by
  have hshort := payload_short h
  have hsize : (lineSize (reconfHeader q.payload.length)).toNat =
      (requestLineBytes + 64 * q.payload.length) % 2 ^ 32 := header_size _ _ _ _
  rw [hsize, requestLineBytes, BitVec.toNat_ofNat]
  split <;> omega

theorem packet_body (slotCount : Nat) (q : CtrlRequest) :
    q.command :: q.payload ≠ [] ∧ payloadLines slotCount q.command ≤ q.payload.length :=
  ⟨List.cons_ne_nil _ _, payload_covers slotCount q⟩

/-- The packet of a request that is not cut. -/
def CtrlRequest.packet (q : CtrlRequest) (slotCount : Nat) (h : q.packets.length = 1) :
    Packet slotCount where
  length := BitVec.ofNat 16 (64 * (q.payload.length + 2))
  session := q.session
  header := reconfHeader q.payload.length
  rest := q.command :: q.payload
  first := reconfHeader_first q
  fits := reconfHeader_fits h
  body _ := packet_body slotCount q

theorem packet_lines (slotCount : Nat) (h : q.packets.length = 1) : (q.packet slotCount h).lines = q.lines := by
  rw [CtrlRequest.lines, packets_single h, List.flatMap_singleton]
  rfl

theorem packet_controller (slotCount : Nat) (h : q.packets.length = 1) :
    (q.packet slotCount h).isController = true :=
  isController_iff.mpr (header_workload _ _ _ _)

variable [FifoKind]

theorem packet_short (slotCount : Nat) (h : q.packets.length = 1) :
    (q.packet slotCount h).rest.length < fifoDepth := by
  have hshort := payload_short h
  have hroom : 512 ≤ fifoDepth := FifoKind.holds
  show q.payload.length + 1 < fifoDepth
  omega

theorem packet_exact (slotCount : Nat) (h : q.packets.length = 1)
    (hv : q.payload = [] ∨ (Command.ofLine q.command).verdict slotCount = .write) :
    (q.packet slotCount h).Exact := by
  refine ⟨packet_controller slotCount h, ?_, packet_short slotCount h⟩
  show q.payload.length = payloadLines slotCount q.command
  rcases hv with hnil | hw
  · have hle := payload_covers slotCount q
    rw [hnil] at hle ⊢
    exact (Nat.le_zero.mp hle).symm
  · rw [payloadLines_write hw, q.sized, if_pos (write_opcode hw)]

/-- **A request in one packet is delivered**, if its payload is what its command needs. -/
theorem delivered_single (h : q.packets.length = 1)
    (hv : q.payload = [] ∨ (Command.ofLine q.command).verdict slotCount = .write) :
    q.Delivered n slotCount := by
  have hx := packet_exact slotCount h hv
  refine ⟨(Command.ofLine q.command).rankBound + 4 + FifoKind.latency, fun k hk is js hb harr hen => ?_⟩
  rw [← packet_lines slotCount h] at harr ⊢
  have hdone := exchange_done hk hx is js hb harr hen
  obtain ⟨hacc, hans, -⟩ := exchange_answered hx (course_run hx (course_start hk _) _ hb) hdone
  exact ⟨hacc, hans⟩

/-- A packet that is alone keeps its story, whatever the surroundings do. -/
theorem story_run {p : Packet slotCount} (hp : p.rest.length < fifoDepth) {k : Kernel n slotCount}
    (hk : k.Idle) (is : List FeedIn) :
    ∃ bs cur qs vs, Story [p] (run Feed.clock (Feed.start k p.lines) is) bs cur qs vs := by
  have hst := story_start hk [p]
  rw [List.flatMap_singleton] at hst
  have hstep : ∀ (y : Feed n slotCount) (i : FeedIn),
      (∃ bs cur qs vs, Story [p] y bs cur qs vs) → True →
      ∃ bs cur qs vs, Story [p] (y.clock i) bs cur qs vs := by
    rintro y i ⟨bs, cur, qs, vs, h⟩ -
    exact story_edge h (story_fits hp h) i
  exact run_meets hstep ⟨_, _, _, _, hst⟩ is (Meets.of_forall (fun _ _ => trivial) _ is)

/-- A command that is no valid write is given no payload line. -/
theorem payload_refused (h : q.packets.length = 1)
    (hv : (Command.ofLine q.command).verdict slotCount ≠ .write) {k : Kernel n slotCount}
    (hk : k.Idle) (is : List FeedIn) :
    (run Feed.clock (Feed.start k q.lines) is).accepted.length ≤ 1 := by
  rw [← packet_lines slotCount h]
  obtain ⟨bs, cur, qs, vs, hst⟩ := story_run (packet_short slotCount h) hk is
  have hnone : payloadLines slotCount (q.packet slotCount h).command = 0 := payloadLines_other hv
  cases alone_of_story (packet_controller slotCount h) hst with
  | fresh _ _ _ hacc => rw [hacc]; exact Nat.zero_le _
  | opened _ _ _ _ hacc => rw [hacc]; exact Nat.zero_le _
  | busy j hb _ _ _ hacc =>
      have hj := hb.lines_le.1
      rw [hnone, Nat.le_zero] at hj
      rw [hacc, hj]
      rfl
  | done j r hj _ hacc =>
      rw [hnone, Nat.le_zero] at hj
      rw [hacc, hj]
      rfl

end Single

/-! ## 3. A request in several packets -/

/-- The first lines behind a packet border, over the `tlast` bits of a stream of lines; `border` says
    whether the stream starts behind one. -/
def openings (border : Bool) : List Bool → Nat
  | [] => 0
  | b :: bs => (if border then 1 else 0) + openings b bs

theorem openings_append (border : Bool) (as bs : List Bool) :
    openings border (as ++ bs) = openings border as + openings (as.getLastD border) bs := by
  induction as generalizing border with
  | nil => exact (Nat.zero_add _).symm
  | cons a as ih =>
      rw [List.cons_append, openings, openings, ih, Nat.add_assoc, List.getLastD_cons]

theorem openings_pos {bs : List Bool} (h : bs ≠ []) : 1 ≤ openings true bs := by
  cases bs with
  | nil => exact absurd rfl h
  | cons b bs => exact Nat.le_add_right 1 _

/-- The last line of a packet ends it. -/
theorem packet_ends (session length : BitVec 16) {xs : List (BitVec 512 × Unit)} (h : xs ≠ []) :
    ((packetLines session length xs).map (·.tlast)).getLastD true = true ∧
      (packetLines session length xs).map (·.tlast) ≠ [] := by
  refine ⟨?_, ?_⟩
  · induction xs with
    | nil => exact absurd rfl h
    | cons x xs ih =>
        cases xs with
        | nil => rfl
        | cons x' xs =>
            rw [packetLines, List.map_cons, List.getLastD_cons]
            have hlast := ih (List.cons_ne_nil _ _)
            rw [packetLines, List.map_cons, List.getLastD_cons] at hlast ⊢
            exact hlast
  · cases xs with
    | nil => exact absurd rfl h
    | cons x xs => exact List.cons_ne_nil _ _

theorem length_packet (session length : BitVec 16) (xs : List (BitVec 512 × Unit)) :
    (packetLines session length xs).length = xs.length := by
  induction xs with
  | nil => rfl
  | cons x xs ih => exact congrArg (· + 1) ih

theorem length_request (q : CtrlRequest) : q.lines.length = q.payload.length + 2 := by
  have hlen : ∀ ps : List (List (BitVec 512)),
      (ps.flatMap fun p => packetLines q.session (BitVec.ofNat 16 (64 * p.length))
        (p.map fun t => (t, ()))).length = ps.flatten.length := by
    intro ps
    induction ps with
    | nil => rfl
    | cons p ps ih =>
        rw [List.flatMap_cons, List.length_append, ih, length_packet, List.length_map,
          List.flatten_cons, List.length_append]
  rw [CtrlRequest.lines, hlen, q.cut]
  rfl

/-- Two packets open twice. -/
theorem openings_cut {q : CtrlRequest} (hcut : 2 ≤ q.packets.length) :
    2 ≤ openings true (q.lines.map (·.tlast)) := by
  have hwhole := q.whole
  unfold CtrlRequest.lines
  match hps : q.packets, hcut with
  | p₁ :: p₂ :: ps, _ =>
      rw [hps] at hwhole
      have hne : ∀ p ∈ p₁ :: p₂ :: ps, (p.map fun t => (t, ())) ≠ [] := by
        intro p hp e
        have hpos := (hwhole p hp).1
        rw [List.map_eq_nil_iff.mp e] at hpos
        exact absurd hpos (by decide)
      obtain ⟨hlast, hne₁⟩ := packet_ends q.session (BitVec.ofNat 16 (64 * p₁.length))
        (hne p₁ (List.mem_cons_self ..))
      obtain ⟨-, hne₂⟩ := packet_ends q.session (BitVec.ofNat 16 (64 * p₂.length))
        (hne p₂ (List.mem_cons_of_mem _ (List.mem_cons_self ..)))
      rw [List.flatMap_cons, List.map_append, openings_append, hlast]
      have h₁ := openings_pos hne₁
      have h₂ : 1 ≤ openings true (((p₂ :: ps).flatMap fun p => packetLines q.session
          (BitVec.ofNat 16 (64 * p.length)) (p.map fun t => (t, ()))).map (·.tlast)) := by
        refine openings_pos fun e => hne₂ ?_
        rw [List.flatMap_cons, List.map_append] at e
        exact (List.append_eq_nil_iff.mp e).1
      omega

section Cut

variable [FifoKind]

/-- The `tlast` bits of the controller beats handed over. -/
def Feed.ends (y : Feed n slotCount) : List Bool :=
  (y.handed.filter fun b => decide (b.workload = reconfApp)).map (·.tlast)

/-- **The branch takes every opening for a header**: it knows whether it stands at a border, and the
    lines given to the controller are among the others. -/
structure Opened (ts : List Bool) (y : Feed n slotCount) : Prop where
  border : y.kernel.flags.seenHeader = !y.ends.getLastD true
  count : y.accepted.length + openings true y.ends ≤ y.ends.length
  stream : List.Sublist
    ((y.handed ++ y.kernel.front.disp.inflight).map (·.tlast) ++ y.todo.map (·.tlast)) ts

theorem opened_start {k : Kernel n slotCount} (hk : k.Idle) (ls : List (DispLine Unit)) :
    Opened (ls.map (·.tlast)) (Feed.start k ls) where
  border := hk.seenHeader
  count := Nat.zero_le _
  stream := by
    rw [show (Feed.start k ls).kernel.front.disp.inflight = [] from hk.empty]
    exact List.Sublist.refl _

/-- What is handed over, held and still to arrive only loses lines. -/
theorem stream_sublist (y : Feed n slotCount) (i : FeedIn) :
    List.Sublist (((y.clock i).handed ++ (y.clock i).kernel.front.disp.inflight).map (·.tlast) ++
        (y.clock i).todo.map (·.tlast))
      ((y.handed ++ y.kernel.front.disp.inflight).map (·.tlast) ++ y.todo.map (·.tlast)) := by
  set d := y.kernel.front.disp with hd
  have hdisp : (y.clock i).kernel.front.disp =
      d.edge (y.rx i) (y.kernel.front.dispReady y.kernel.reconfReady) := rfl
  have hpop := StreamFifo.edge_items d.fifo d.offered (y.kernel.front.dispReady y.kernel.reconfReady)
  have harr : ((y.rx i).map d.combine).toList.map (·.tlast) = (y.rx i).toList.map (·.tlast) := by
    cases y.rx i <;> rfl
  have hwrite : (d.fifo.written d.offered).toList.Sublist d.offered.toList := by
    unfold Fifo.written
    split
    · exact List.Sublist.refl _
    · exact List.nil_sublist _
  have hnew : ((y.clock i).handed ++ (y.clock i).kernel.front.disp.inflight).map (·.tlast) ++
      (y.clock i).todo.map (·.tlast) =
      (y.handed ++ (d.fifo.items ++ (d.fifo.written d.offered).toList)).map (·.tlast) ++
        y.todo.map (·.tlast) := by
    have htodo : y.todo.map (·.tlast) =
        (y.rx i).toList.map (·.tlast) ++ (y.clock i).todo.map (·.tlast) := by
      rw [← List.map_append, rx_todo]
    rw [htodo, hdisp, inflight_edge, ← harr, ← hpop]
    show ((y.handed ++ (y.kernel.front.handed y.kernel.reconfReady).toList) ++ _).map _ ++ _ = _
    rw [Front.handed]
    simp only [List.map_append, List.append_assoc]
    rfl
  rw [hnew]
  refine List.Sublist.append (List.Sublist.map _ (List.Sublist.append_left ?_ _))
    (List.Sublist.refl _)
  exact List.Sublist.append_left hwrite _

/-- Without a beat handed over to the branch its header flag stays, and the controller is given
    nothing. -/
theorem branch_hold {k : Kernel n slotCount} (i : KernelIn)
    (h : (k.reconfSelected && k.reconfReady) = false) :
    (k.flagsNext i).seenHeader = k.flags.seenHeader ∧ k.lineTaken = [] := by
  have h1 : (k.headerLine && k.reconfReady) = false := by
    rw [Kernel.headerLine, Bool.and_right_comm, h]
    rfl
  have h2 : (k.payloadLine && k.reconfReady) = false := by
    rw [Kernel.payloadLine, Bool.and_right_comm, h]
    rfl
  constructor
  · rw [Kernel.flagsNext, h1, h2, Bool.false_and, if_neg Bool.false_ne_true,
      if_neg Bool.false_ne_true]
    split <;> rfl
  · -- a line the controller takes is one the branch is ready for
    rw [Kernel.lineTaken]
    refine if_neg fun e => ?_
    obtain ⟨hfw, hrdy⟩ := Bool.and_eq_true_iff.mp e
    obtain ⟨hpay, hdrain⟩ := Bool.and_eq_true_iff.mp hfw
    obtain ⟨hsel, hseen⟩ := Bool.and_eq_true_iff.mp hpay
    have hready : k.reconfReady = true := by
      rw [Kernel.reconfReady, Kernel.headerLine, hseen, Bool.not_true, Bool.and_false,
        if_neg Bool.false_ne_true, hrdy, ite_self]
    rw [hsel, hready] at h
    cases h

/-- A beat handed over to the branch decides whether the branch stands at a border; the controller is
    given at most that beat, and nothing at a border. -/
theorem branch_take {k : Kernel n slotCount} (i : KernelIn) {b : RxBeat Unit} (hh : k.head = some b)
    (hsel : k.reconfSelected = true) (hready : k.reconfReady = true) :
    (k.flagsNext i).seenHeader = !b.tlast ∧
      k.lineTaken.length ≤ if k.flags.seenHeader then 1 else 0 := by
  cases hseen : k.flags.seenHeader with
  | false =>
      have hline : k.headerLine = true := by rw [Kernel.headerLine, hsel, hseen]; rfl
      rw [Kernel.flagsNext, hline, hready, hh, lineTaken_none (forward_unseen hseen)]
      exact ⟨rfl, Nat.le_refl 0⟩
  | true =>
      have hline : k.headerLine = false := by
        rw [Kernel.headerLine, hseen]
        exact Bool.and_false _
      have hpay : k.payloadLine = true := by rw [Kernel.payloadLine, hsel, hseen]; rfl
      refine ⟨?_, ?_⟩
      · rw [Kernel.flagsNext, hline, hpay, hready, hh]
        cases hb : b.tlast with
        | true => simp [hb]
        | false =>
            simp only [hb, Bool.false_and, Bool.false_eq_true, if_false, Option.any_some,
              Bool.and_false]
            split
            · exact hseen
            · exact hseen
      · rw [Kernel.lineTaken]
        split <;> simp

theorem opened_edge {ts : List Bool} {y : Feed n slotCount} (h : Opened ts y) (i : FeedIn) :
    Opened ts (y.clock i) := by
  have hstream := (stream_sublist y i).trans h.stream
  have hends : (y.clock i).ends = y.ends ++
      ((y.kernel.front.handed y.kernel.reconfReady).toList.filter
        fun b => decide (b.workload = reconfApp)).map (·.tlast) := by
    show ((y.handed ++ _).filter _).map _ = _
    rw [List.filter_append, List.map_append]
    rfl
  have hacc : (y.clock i).accepted = y.accepted ++ y.kernel.lineTaken := rfl
  have hflags : (y.clock i).kernel.flags = y.kernel.flagsNext (y.kernelIn i) := rfl
  cases hsel : y.kernel.reconfSelected && y.kernel.reconfReady with
  | false =>
      obtain ⟨hseen, hnone⟩ := branch_hold (y.kernelIn i) hsel
      have hsame : (y.clock i).ends = y.ends := by
        rw [hends]
        cases hd : y.kernel.front.handed y.kernel.reconfReady with
        | none => exact List.append_nil _
        | some b =>
            have hh := handed_head hd
            have hw : b.workload ≠ reconfApp := by
              intro hw
              rw [handed_selected hh hw] at hd
              rw [reconfSelected_some hh, decide_eq_true hw, Bool.true_and] at hsel
              rw [hsel] at hd
              cases hd
            rw [Option.toList_some, List.filter_cons, decide_eq_false hw]
            exact List.append_nil _
      refine ⟨?_, ?_, hstream⟩
      · rw [hflags, hseen, hsame]
        exact h.border
      · rw [hacc, hnone, List.append_nil, hsame]
        exact h.count
  | true =>
      obtain ⟨hs, hr⟩ := Bool.and_eq_true_iff.mp hsel
      obtain ⟨b, hh, hw⟩ : ∃ b, y.kernel.head = some b ∧ b.workload = reconfApp := by
        cases hh : y.kernel.head with
        | none => rw [reconfSelected_none hh] at hs; cases hs
        | some b => exact ⟨b, rfl, of_decide_eq_true ((reconfSelected_some hh).symm.trans hs)⟩
      obtain ⟨hseen, htaken⟩ := branch_take (y.kernelIn i) hh hs hr
      have hnew : (y.clock i).ends = y.ends ++ [b.tlast] := by
        rw [hends, handed_selected hh hw, hr, if_pos rfl, Option.toList_some, List.filter_cons,
          decide_eq_true hw]
        rfl
      have hb := h.border
      have hc := h.count
      refine ⟨?_, ?_, hstream⟩
      · rw [hflags, hseen, hnew, List.getLastD_concat]
      · rw [hacc, hnew, openings_append, List.length_append, List.length_append]
        rw [hb] at htaken
        cases hlast : y.ends.getLastD true with
        | true =>
            rw [hlast, Bool.not_true, if_neg Bool.false_ne_true] at htaken
            simp only [openings, if_true, List.length_singleton]
            omega
        | false =>
            rw [hlast, Bool.not_false, if_pos rfl] at htaken
            simp only [openings, Bool.false_eq_true, if_false, List.length_singleton]
            omega

theorem opened_run {k : Kernel n slotCount} (hk : k.Idle) (ls : List (DispLine Unit))
    (is : List FeedIn) : Opened (ls.map (·.tlast)) (run Feed.clock (Feed.start k ls) is) :=
  run_meets (P := Opened (ls.map (·.tlast))) (fun _ i h (_ : True) => opened_edge h i)
    (opened_start hk ls) is (Meets.of_forall (fun _ _ => trivial) _ is)

/-- **A request that is cut loses a line**: the branch takes two of its lines for headers, or never
    sees one of them. -/
theorem cut_loses {q : CtrlRequest} (hcut : 2 ≤ q.packets.length) {k : Kernel n slotCount}
    (hk : k.Idle) (is : List FeedIn) :
    (run Feed.clock (Feed.start k q.lines) is).accepted.length ≤ q.payload.length := by
  have h := opened_run hk q.lines is
  generalize run Feed.clock (Feed.start k q.lines) is = y at h
  have hsub : List.Sublist y.ends (q.lines.map (·.tlast)) := by
    refine List.Sublist.trans ?_ h.stream
    refine List.Sublist.trans ?_ (List.sublist_append_left _ _)
    exact List.Sublist.map _ (List.filter_sublist.trans (List.sublist_append_left _ _))
  have hlen := hsub.length_le
  rw [List.length_map, length_request] at hlen
  have hcount := h.count
  by_cases hall : y.ends.length = q.payload.length + 2
  · have heq : y.ends = q.lines.map (·.tlast) :=
      hsub.eq_of_length (by rw [List.length_map, length_request, hall])
    have htwo := openings_cut hcut
    rw [← heq] at htwo
    omega
  · by_cases hnil : y.ends = []
    · rw [hnil, List.length_nil] at hcount
      omega
    · have hone := openings_pos hnil
      omega

/-! ## 4. Delivery -/

/-- An edge at which every partner of the controller is willing. -/
def willingEdge (send : Bool) : FeedIn where
  send := send
  txTready := true
  pins := { In.low with
    mAxisTready := true
    icapTready := true
    icapPrDone := true
    awready := true
    wready := true
    bvalid := true
    arready := true
    rvalid := true }

theorem sent_all (y : Feed n slotCount) :
    (run Feed.clock y (List.replicate y.todo.length (willingEdge true))).todo = [] := by
  generalize hm : y.todo.length = m
  induction m generalizing y with
  | zero => exact List.length_eq_zero_iff.mp hm
  | succ m ih =>
      rw [List.replicate_succ, run_cons]
      refine ih _ ?_
      show y.todo.tail.length = m
      rw [List.length_tail, hm]
      rfl

/-- What no run of the reset kernel gives the controller is not delivered. -/
theorem not_delivered {q : CtrlRequest}
    (h : ∀ is, (run Feed.clock (Feed.start (Kernel.reset n slotCount fun _ => 0) q.lines)
      is).accepted.length ≤ q.payload.length) : ¬ q.Delivered n slotCount := by
  rintro ⟨enough, hdel⟩
  have hokay : ∀ i ∈ List.replicate q.lines.length (willingEdge true) ++
      List.replicate enough (willingEdge false), i.pins.bresp = 0 := by
    intro i hi
    rcases List.mem_append.mp hi with hi | hi <;> rw [List.eq_of_mem_replicate hi] <;> rfl
  have hcount : enough ≤ (List.replicate enough (willingEdge false)).countP (·.pins.willing) := by
    rw [List.countP_replicate]
    exact Nat.le_refl _
  obtain ⟨hacc, -⟩ := hdel _ (idle_reset _) _ _ hokay (sent_all _) hcount
  have hlen := h (List.replicate q.lines.length (willingEdge true) ++
    List.replicate enough (willingEdge false))
  rw [hacc, List.length_cons] at hlen
  omega

/-- **When a controller request is delivered**: it arrives in one packet, and has no payload or is a
    write that passes the controller's checks. -/
theorem delivered_iff (q : CtrlRequest) (n slotCount : Nat) :
    q.Delivered n slotCount ↔ q.packets.length = 1 ∧
      (q.payload = [] ∨ (Command.ofLine q.command).verdict slotCount = .write) := by
  refine ⟨fun hdel => ?_, fun ⟨h, hv⟩ => delivered_single h hv⟩
  have hone : q.packets.length = 1 := by
    by_contra hne
    have hpos : q.packets.length ≠ 0 := by
      intro e
      have hcut := q.cut
      rw [List.length_eq_zero_iff.mp e] at hcut
      cases hcut
    exact not_delivered (fun is => cut_loses (by omega) (idle_reset _) is) hdel
  refine ⟨hone, ?_⟩
  by_contra hno
  obtain ⟨hne, hv⟩ := not_or.mp hno
  refine not_delivered (fun is => ?_) hdel
  have hpos := List.length_pos_iff.mpr hne
  exact (payload_refused hone hv (idle_reset _) is).trans hpos

end Cut

section Source

attribute [local instance] axisDataFifos

/-- A `QUERY_STATUS` whose header comes in a packet of its own. -/
def cutQuery : CtrlRequest where
  session := 7
  command := commandLine 4 0 0 0
  payload := []
  packets := [[reconfHeader 0], [commandLine 4 0 0 0]]
  sized := by decide +kernel
  cut := rfl
  whole := by decide

/-- It is not answered: its command is taken for a header. -/
theorem cut_query_lost : ¬ cutQuery.Delivered 2 2 :=
  not_delivered fun is => cut_loses (by decide) (idle_reset _) is

end Source

end Frac.PktLogic
