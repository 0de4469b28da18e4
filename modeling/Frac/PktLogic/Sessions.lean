/-
  File:      Frac/PktLogic/Sessions.lean
  Subject:   Whom the controller answers, when any packets arrive: first lines without FIRST, headers
             in the middle of a packet, any workload and any declared size.

  The branch takes the first controller beat behind a controller packet's last for a header, and keeps
  its session for the response. The dispatcher looks for headers by a rule of its own, so that a header
  it finds inside a packet of the controller ends that packet for the one and not for the other.

  * `Trace` -- the kernel with a record of which lines the dispatcher recognised as headers and of
    whose packet the controller's command came from;
  * `Orderly` -- no header is recognised inside a packet that the controller is given, and the
    dispatcher's FIFO has room;
  * `Tidy` -- the beats on their way, as packets of one session; `tidy_append`, `tidy_arrive`;
  * `responses_reach_sender` -- **in an orderly run the sender of a command gets its response, and no
    header is a command**; `response_to_wrong_session` -- a run that is not.
-/
import Frac.PktLogic.Packets

namespace Frac.PktLogic

open Clocked Reassembly Reconf

variable {n slotCount : Nat}

/-! ## 1. Packets of any contents -/

/-- A packet as it is received: its session, the length of its TCP segment, and any lines. -/
structure RawPacket where
  session : BitVec 16
  length : BitVec 16
  payload : List (BitVec 512)

def RawPacket.lines (p : RawPacket) : List (DispLine Unit) :=
  packetLines p.session p.length (p.payload.map fun t => (t, ()))

/-- A beat on its way from the dispatcher's input to its output, and whether its line was recognised as
    a header. -/
abbrev Marked := RxBeat Unit × Bool

section Run

variable [FifoKind]

/-- **The kernel, and what a spectator keeps**: the session of the packet whose lines are arriving
    (none between packets), the mark of the line in the dispatcher's register, the marked contents of
    its FIFO, and the session of the packet the controller's last command came from. -/
structure Trace (n slotCount : Nat) where
  feed : Feed n slotCount
  packet : Option (BitVec 16)
  mark : Bool
  queue : Fifo fifoDepth Marked
  command : Option (BitVec 16)

def Trace.init (n slotCount : Nat) (mem : Mem 33) (ps : List RawPacket) : Trace n slotCount where
  feed := Feed.init n slotCount mem (ps.flatMap (·.lines))
  packet := none
  mark := false
  queue := .empty
  command := none

namespace Trace

/-- What the dispatcher offers its FIFO, marked. -/
def offered (y : Trace n slotCount) : Option Marked :=
  y.feed.kernel.front.disp.offered.map fun b => (b, y.mark)

/-- The pins of the controller. -/
def pins (y : Trace n slotCount) (i : FeedIn) : In := y.feed.kernel.ctrlIn (y.feed.kernelIn i)

/-- One clock edge. -/
def clock (y : Trace n slotCount) (i : FeedIn) : Trace n slotCount where
  feed := y.feed.clock i
  packet := match y.feed.rx i with
    | none => y.packet
    | some l => if l.tlast then none else some l.connid
  mark := match y.feed.rx i with
    | none => y.mark
    | some l => y.feed.kernel.front.disp.configHeader l
  queue := y.queue.edge y.offered
    (y.feed.kernel.front.dispReady y.feed.kernel.reconfReady && y.feed.kernel.front.disp.fifo.tvalid)
  command :=
    if accepts y.feed.kernel.sys.ctrl (y.pins i) then y.feed.kernel.head.map (·.connid) else y.command

/-- **The edge keeps sender and response together**: a response that is handshaken goes to the session
    the command came from, and a line taken as a command was not recognised as a header. -/
def Attributed (y : Trace n slotCount) (i : FeedIn) : Prop :=
  (responseTaken y.feed.kernel.sys.ctrl (y.pins i) ≠ [] →
    y.command = some y.feed.kernel.flags.txMeta.session) ∧
  (accepts y.feed.kernel.sys.ctrl (y.pins i) = true → ∃ b, y.queue.items.head? = some (b, false))

/-- **An orderly edge**: the dispatcher's FIFO has room, and a line recognised as a header is the first
    of its packet or finds another workload than the controller's selected. -/
def Orderly (y : Trace n slotCount) (i : FeedIn) : Prop :=
  y.feed.Fits ∧ ∀ l, y.feed.rx i = some l → y.feed.kernel.front.disp.configHeader l = true →
    y.packet = none ∨ y.feed.kernel.front.disp.workloadSelection ≠ reconfApp

end Trace

/-! ## 2. The beats on their way -/

/-- The packet of the controller that is open behind a beat. -/
def openAfter (o : Option (BitVec 16)) (b : RxBeat Unit) : Option (BitVec 16) :=
  if b.workload = reconfApp then if b.tlast then none else some (o.getD b.connid) else o

/-- **Packets of one session each**: with the controller packet `o` open, a beat is one of its session
    and no header; between such packets it may be any. `o'` is open behind the last. -/
def Tidy (o : Option (BitVec 16)) : List Marked → Option (BitVec 16) → Prop
  | [], o' => o = o'
  | x :: xs, o' =>
    (∀ s, o = some s → x.1.workload = reconfApp ∧ x.1.connid = s ∧ x.2 = false) ∧
      Tidy (openAfter o x.1) xs o'

omit [FifoKind] in
theorem tidy_append {o o' : Option (BitVec 16)} {xs ys : List Marked} :
    Tidy o (xs ++ ys) o' ↔ ∃ m, Tidy o xs m ∧ Tidy m ys o' := by
  induction xs generalizing o with
  | nil => exact ⟨fun h => ⟨o, rfl, h⟩, fun ⟨m, e, h⟩ => by rw [show o = m from e]; exact h⟩
  | cons x xs ih =>
      constructor
      · rintro ⟨hx, h⟩
        obtain ⟨m, h1, h2⟩ := ih.mp h
        exact ⟨m, ⟨hx, h1⟩, h2⟩
      · rintro ⟨m, ⟨hx, h1⟩, h2⟩
        exact ⟨hx, ih.mpr ⟨m, h1, h2⟩⟩

/-- Lines of one session between the packet borders; `o` is the session of the packet under way. -/
def InPackets (o : Option (BitVec 16)) : List (DispLine Unit) → Prop
  | [] => True
  | l :: ls => (∀ s, o = some s → l.connid = s) ∧
    InPackets (if l.tlast then none else some l.connid) ls

omit [FifoKind] in
theorem inPackets_packet (p : RawPacket) {ls : List (DispLine Unit)} (h : InPackets none ls) :
    InPackets none (p.lines ++ ls) := by
  unfold RawPacket.lines
  generalize p.payload.map (fun t => (t, ())) = xs
  -- inside the packet, the session is its own
  have hin : ∀ o, (∀ s, o = some s → p.session = s) → (xs = [] → o = none) →
      InPackets o (packetLines p.session p.length xs ++ ls) := by
    induction xs with
    | nil =>
        intro o _ ho
        rw [ho rfl]
        exact h
    | cons x xs ih =>
        intro o ho _
        refine ⟨ho, ?_⟩
        cases xs with
        | nil => exact h
        | cons x' xs => exact ih _ (fun s e => by cases e; rfl) (fun e => by cases e)
  exact hin none (fun s e => by cases e) fun _ => rfl

omit [FifoKind] in
theorem inPackets_stream (ps : List RawPacket) : InPackets none (ps.flatMap (·.lines)) := by
  induction ps with
  | nil => trivial
  | cons p ps ih => exact inPackets_packet p ih

/-! ## 3. One edge -/

/-- The controller packet the branch has open, by its session. -/
def Flags.opened (f : Flags) : Option (BitVec 16) :=
  if f.seenHeader then some f.txMeta.session else none

/-- The registers of the branch follow the beats handed over. -/
theorem flagsNext_opened (k : Kernel n slotCount) (i : KernelIn) :
    (k.flagsNext i).opened =
      (k.front.handed k.reconfReady).elim k.flags.opened (openAfter k.flags.opened) := by
  cases hh : k.head with
  | none =>
      have hsel := reconfSelected_none hh
      rw [handed_none hh, Kernel.flagsNext, Kernel.headerLine, Kernel.payloadLine, hsel]
      simp only [Bool.false_and, Bool.false_eq_true, if_false]
      split <;> rfl
  | some b =>
      have hsel := reconfSelected_some hh
      by_cases hw : b.workload = reconfApp
      · rw [handed_selected hh hw]
        rw [decide_eq_true hw] at hsel
        cases hready : k.reconfReady with
        | false =>
            rw [Kernel.flagsNext, hready, Bool.and_false, Bool.and_false, Bool.false_and]
            simp only [Bool.false_eq_true, if_false]
            split <;> rfl
        | true =>
            rw [if_pos rfl, Option.elim_some, openAfter, if_pos hw]
            cases hseen : k.flags.seenHeader with
            | false =>
                -- the beat is taken for a header
                rw [Kernel.flagsNext, Kernel.headerLine, hsel, hseen, hready, hh, Flags.opened,
                  Flags.opened, hseen]
                cases hb : b.tlast <;> simp [hb]
            | true =>
                rw [Kernel.flagsNext, Kernel.headerLine, Kernel.payloadLine, hsel, hseen, hready, hh]
                cases hb : b.tlast with
                | false =>
                    simp only [hb, Bool.not_true, Bool.and_true, Bool.and_false, Bool.false_eq_true,
                      if_false, Option.any_some]
                    split <;> simp [Flags.opened, hseen]
                | true => simp [hb, Flags.opened]
      · rw [decide_eq_false hw] at hsel
        have hkeep : (k.flagsNext i).opened = k.flags.opened := by
          rw [Kernel.flagsNext, Kernel.headerLine, Kernel.payloadLine, hsel]
          simp only [Bool.false_and, Bool.false_eq_true, if_false]
          split <;> rfl
        rw [hkeep]
        cases hd : k.front.handed k.reconfReady with
        | none => rfl
        | some b' =>
            obtain rfl : b = b' := Option.some.inj (hh.symm.trans (handed_head hd))
            rw [Option.elim_some, openAfter, if_neg hw]

/-- A line that is taken as a command is the head, of the packet the branch has open. -/
theorem accepts_open {k : Kernel n slotCount} {i : KernelIn}
    (h : accepts k.sys.ctrl (k.ctrlIn i) = true) :
    ∃ b, k.head = some b ∧ k.flags.opened = some k.flags.txMeta.session ∧
      (k.flagsNext i).txMeta = k.flags.txMeta := by
  obtain ⟨-, hv⟩ := accepts_iff.mp h
  have hfw : k.forwardLine = true := (Bool.and_eq_true_iff.mp hv).1
  obtain ⟨hpay, -⟩ := Bool.and_eq_true_iff.mp hfw
  obtain ⟨hsel, hseen⟩ := Bool.and_eq_true_iff.mp hpay
  have hline : k.headerLine = false := by rw [Kernel.headerLine, hseen, Bool.not_true, Bool.and_false]
  cases hh : k.head with
  | none =>
      rw [reconfSelected_none hh] at hsel
      cases hsel
  | some b =>
      refine ⟨b, rfl, by rw [Flags.opened, hseen, if_pos rfl], ?_⟩
      rw [Kernel.flagsNext, hline, Bool.false_and, if_neg Bool.false_ne_true]
      split
      · rfl
      · split <;> rfl

/-- While the controller is not idle, the session of the response stays. -/
theorem flagsNext_busy {k : Kernel n slotCount} (i : KernelIn) (h : k.sys.ctrl.state ≠ .idle) :
    (k.flagsNext i).txMeta = k.flags.txMeta := by
  have hline : (k.headerLine && k.reconfReady) = false := by
    cases hl : k.headerLine with
    | false => rfl
    | true => rw [Kernel.reconfReady, hl, if_pos rfl, decide_eq_false h]; rfl
  rw [Kernel.flagsNext, hline, if_neg Bool.false_ne_true]
  split
  · rfl
  · split <;> rfl

/-- **What every orderly edge keeps.** -/
structure Kept (y : Trace n slotCount) : Prop where
  queue : y.queue.items.map (·.1) = y.feed.kernel.front.disp.fifo.items
  lines : InPackets y.packet y.feed.todo
  beats : Tidy y.feed.kernel.flags.opened (y.queue.items ++ y.offered.toList)
    (if y.feed.kernel.front.disp.workloadSelection = reconfApp then y.packet else none)
  signals : Signals y.feed.kernel.sys.ctrl
  command : y.feed.kernel.sys.ctrl.state ≠ .idle →
    y.command = some y.feed.kernel.flags.txMeta.session

theorem kept_init (mem : Mem 33) (ps : List RawPacket) : Kept (Trace.init n slotCount mem ps) where
  queue := rfl
  lines := inPackets_stream ps
  beats := rfl
  signals := signals_reset
  command h := absurd rfl h

section Edge

variable {y : Trace n slotCount} {i : FeedIn}

/-- The head of the marked FIFO is the head of the FIFO. -/
theorem queue_head (h : Kept y) {b : RxBeat Unit} (hh : y.feed.kernel.head = some b) :
    ∃ m xs, y.queue.items = (b, m) :: xs := by
  have hmap := congrArg List.head? h.queue
  rw [StreamFifo.head_of_head? hh, List.head?_map] at hmap
  cases hq : y.queue.items with
  | nil =>
      rw [hq] at hmap
      cases hmap
  | cons x xs =>
      rw [hq] at hmap
      obtain rfl : x.1 = b := Option.some.inj hmap
      exact ⟨x.2, xs, rfl⟩

/-- A command comes from the packet that is open, and is no header. -/
theorem command_open (h : Kept y)
    (ha : accepts y.feed.kernel.sys.ctrl (y.pins i) = true) :
    ∃ b, y.feed.kernel.head = some b ∧ b.connid = y.feed.kernel.flags.txMeta.session ∧
      y.queue.items.head? = some (b, false) := by
  obtain ⟨b, hh, hopen, -⟩ := accepts_open ha
  obtain ⟨m, xs, hq⟩ := queue_head h hh
  have hbeats := h.beats
  rw [hq, hopen] at hbeats
  obtain ⟨-, hsession, hmark⟩ := hbeats.1 _ rfl
  refine ⟨b, hh, hsession, ?_⟩
  rw [hq, show m = false from hmark]
  rfl

theorem attributed_of_kept (h : Kept y) (i : FeedIn) : y.Attributed i := by
  refine ⟨fun hr => h.command fun hidle => ?_, fun ha => ?_⟩
  · exact hr (responseTaken_none (by rw [h.signals.mAxisTvalid, hidle]; rfl))
  · obtain ⟨b, -, -, hmark⟩ := command_open h ha
    exact ⟨b, hmark⟩

/-- **A line arrives**: behind the beats on their way it continues the packet under way, or starts one. -/
theorem tidy_arrive {d : Disp Unit} {o : Option (BitVec 16)} {l : DispLine Unit}
    (hl : ∀ s, o = some s → l.connid = s)
    (hord : d.configHeader l = true → o = none ∨ d.workloadSelection ≠ reconfApp) :
    Tidy (if d.workloadSelection = reconfApp then o else none) [(d.combine l, d.configHeader l)]
      (if (d.label l).2 = reconfApp then if l.tlast then none else some l.connid else none) := by
  by_cases hopen : d.workloadSelection = reconfApp ∧ ∃ s, o = some s
  · -- inside a packet of the controller no header is recognised
    obtain ⟨hw, s, rfl⟩ := hopen
    have hconfig : d.configHeader l = false := by
      cases hc : d.configHeader l with
      | false => rfl
      | true =>
          rcases hord hc with e | e
          · cases e
          · exact absurd hw e
    have hlabel : (d.label l).2 = reconfApp := by rw [Disp.label, hconfig]; exact hw
    have hs := hl s rfl
    rw [if_pos hw, if_pos hlabel]
    refine ⟨fun s' e => ?_, ?_⟩
    · cases e
      exact ⟨hlabel, hs, hconfig⟩
    · show openAfter (some s) (d.combine l) = _
      rw [openAfter, if_pos (show (d.combine l).workload = reconfApp from hlabel), hs]
      rfl
  · have hnone : (if d.workloadSelection = reconfApp then o else none) = none := by
      split
      · rename_i hw
        cases o with
        | none => rfl
        | some s => exact absurd ⟨hw, s, rfl⟩ hopen
      · rfl
    rw [hnone]
    exact ⟨fun s e => (by cases e), rfl⟩

/-- The marked FIFO makes the edges of the FIFO. -/
theorem queue_edge (h : Kept y) (i : FeedIn) :
    (y.clock i).queue.items.map (·.1) = (y.clock i).feed.kernel.front.disp.fifo.items := by
  have hfifo : (y.clock i).feed.kernel.front.disp.fifo = y.feed.kernel.front.disp.fifo.edge
      y.feed.kernel.front.disp.offered (y.feed.kernel.front.dispReady y.feed.kernel.reconfReady) :=
    fifo_edge ..
  rw [hfifo, StreamFifo.edge]
  refine Fifo.edge_items_map h.queue ?_ _
  show (y.feed.kernel.front.disp.offered.map fun b => (b, y.mark)).map (·.1) = _
  rw [Option.map_map]
  exact Option.map_id' ..

/-- The lines still to arrive are whole packets behind the one under way. -/
theorem lines_edge (h : Kept y) (i : FeedIn) :
    InPackets (y.clock i).packet (y.clock i).feed.todo := by
  have hlines := h.lines
  rw [← rx_todo y.feed i] at hlines
  unfold Trace.clock
  cases hrx : y.feed.rx i with
  | none =>
      rw [hrx] at hlines
      exact hlines
  | some l =>
      rw [hrx] at hlines
      exact hlines.2

/-- The beats on their way, with the line that arrives. -/
theorem beats_arrive (h : Kept y) (hok : y.Orderly i) :
    Tidy y.feed.kernel.flags.opened ((y.queue.items ++ y.offered.toList) ++ (y.clock i).offered.toList)
      (if (y.clock i).feed.kernel.front.disp.workloadSelection = reconfApp then (y.clock i).packet
        else none) := by
  refine tidy_append.mpr ⟨_, h.beats, ?_⟩
  have hlines := h.lines
  rw [← rx_todo y.feed i] at hlines
  have hdisp : (y.clock i).feed.kernel.front.disp = y.feed.kernel.front.disp.edge (y.feed.rx i)
      (y.feed.kernel.front.dispReady y.feed.kernel.reconfReady) := rfl
  rw [Trace.offered, hdisp]
  unfold Trace.clock
  cases hrx : y.feed.rx i with
  | none => rfl
  | some l =>
      rw [hrx] at hlines
      exact tidy_arrive hlines.1 (hok.2 l hrx)

/-- The beats on their way after the edge. -/
theorem beats_edge (h : Kept y) (hok : y.Orderly i) :
    Tidy (y.clock i).feed.kernel.flags.opened ((y.clock i).queue.items ++ (y.clock i).offered.toList)
      (if (y.clock i).feed.kernel.front.disp.workloadSelection = reconfApp then (y.clock i).packet
        else none) := by
  set ready := y.feed.kernel.front.dispReady y.feed.kernel.reconfReady &&
    y.feed.kernel.front.disp.fifo.tvalid with hready
  have hall := beats_arrive h hok
  have hroom : y.queue.written y.offered = y.offered := by
    refine Fifo.written_fits fun e => ?_
    have hlen := congrArg List.length h.queue
    rw [List.length_map] at hlen
    rw [Fifo.tready, hlen]
    exact hok.1 (by rw [Trace.offered, Option.isSome_map] at e; exact e)
  have hsplit := Fifo.edge_items y.queue y.offered ready
  rw [hroom] at hsplit
  rw [← hsplit, List.append_assoc] at hall
  have hflags : (y.clock i).feed.kernel.flags = y.feed.kernel.flagsNext (y.feed.kernelIn i) := rfl
  have hpop : y.feed.kernel.front.handed y.feed.kernel.reconfReady =
      (y.queue.popped ready).map (·.1) := by
    rw [Front.handed, StreamFifo.popped, Fifo.popped, Fifo.popped, ← h.queue, List.head?_map]
    split <;> rfl
  rw [hflags, flagsNext_opened, hpop]
  cases hp : y.queue.popped ready with
  | none =>
      rw [hp] at hall
      exact hall
  | some x =>
      rw [hp] at hall
      exact hall.2

/-- The session of the response is that of the command under way. -/
theorem command_edge (h : Kept y) (hbusy : (y.clock i).feed.kernel.sys.ctrl.state ≠ .idle) :
    (y.clock i).command = some (y.clock i).feed.kernel.flags.txMeta.session := by
  have hflags : (y.clock i).feed.kernel.flags = y.feed.kernel.flagsNext (y.feed.kernelIn i) := rfl
  have hctrl : (y.clock i).feed.kernel.sys.ctrl = y.feed.kernel.sys.ctrl.edge (y.pins i) :=
    ctrl_edge y.feed.kernel rfl
  unfold Trace.clock
  cases ha : accepts y.feed.kernel.sys.ctrl (y.pins i) with
  | true =>
      obtain ⟨b, hh, hsession, -⟩ := command_open h ha
      obtain ⟨-, -, -, hmeta⟩ := accepts_open ha
      rw [if_pos rfl, hh, Option.map_some, hsession]
      exact congrArg (fun m => some m.session) hmeta.symm
  | false =>
      have hnot : y.feed.kernel.sys.ctrl.state ≠ .idle := by
        intro hidle
        rw [accepts_idle hidle] at ha
        rcases (idle_edge h.signals hidle (y.pins i)).2 with ⟨hv, -⟩ | ⟨-, hstay⟩
        · rw [hv] at ha
          cases ha
        · exact hbusy (hctrl ▸ hstay)
      rw [if_neg Bool.false_ne_true, h.command hnot]
      exact congrArg (fun m => some m.session) (flagsNext_busy _ hnot).symm

/-- **One orderly edge.** -/
theorem kept_edge (h : Kept y) (hok : y.Orderly i) : Kept (y.clock i) where
  queue := queue_edge h i
  lines := lines_edge h i
  beats := beats_edge h hok
  signals := signals_clock h.signals (y.pins i)
  command := command_edge h

end Edge

/-! ## 4. Runs -/

/-- **The controller answers the sender of the command.** Whatever packets arrive, in a run of orderly
    edges every response that is handshaken goes to the session of the packet its command came from,
    and no line taken as a command was recognised as a header. -/
theorem responses_reach_sender (mem : Mem 33) (ps : List RawPacket) (is : List FeedIn)
    (h : Meets Trace.clock Trace.Orderly (Trace.init n slotCount mem ps) is) (i : FeedIn) :
    (run Trace.clock (Trace.init n slotCount mem ps) is).Attributed i :=
  attributed_of_kept (run_meets (fun _ _ => kept_edge) (kept_init mem ps) is h) i

instance (y : Trace n slotCount) (i : FeedIn) : Decidable (y.Orderly i) :=
  haveI : Decidable (∀ l, y.feed.rx i = some l → y.feed.kernel.front.disp.configHeader l = true →
      y.packet = none ∨ y.feed.kernel.front.disp.workloadSelection ≠ reconfApp) :=
    match y.feed.rx i with
    | none => .isTrue fun l e => by cases e
    | some l => decidable_of_iff (y.feed.kernel.front.disp.configHeader l = true →
        y.packet = none ∨ y.feed.kernel.front.disp.workloadSelection ≠ reconfApp)
        ⟨fun h l' e => Option.some.inj e ▸ h, fun h => h l rfl⟩
  inferInstanceAs (Decidable (_ ∧ _))

instance (y : Trace n slotCount) (i : FeedIn) : Decidable (y.Attributed i) :=
  haveI : Decidable (∃ b, y.queue.items.head? = some (b, false)) :=
    decidable_of_iff (y.queue.items.head?.map (·.2) = some false) (by
      constructor
      · intro h
        obtain ⟨x, hx, hm⟩ := Option.map_eq_some_iff.mp h
        exact ⟨x.1, by rw [hx, ← hm]⟩
      · rintro ⟨b, hb⟩
        rw [hb]
        rfl)
  inferInstanceAs (Decidable (_ ∧ _))

end Run

section Source

attribute [local instance] axisDataFifos

/-- A header line of a workload, FIRST and LAST. -/
def rawHeader (workload : BitVec 16) (size : BitVec 32) : BitVec 512 :=
  (workload ++ 0xffff#16 ++ size ++ BitVec.allOnes 448).cast header_width

/-- A `QUERY_STATUS` of a session. -/
def queryPacket (session : BitVec 16) : RawPacket := ⟨session, 128, [rawHeader reconfApp 64, 4]⟩

/-- Two lines arrive, then edges at which the response port is ready. -/
def twoLines : List FeedIn :=
  List.replicate 2 ⟨true, true, In.low⟩ ++
    List.replicate 8 ⟨false, true, { In.low with mAxisTready := true }⟩

/-- The edge at which a waiting response is taken. -/
def answeringEdge : FeedIn := ⟨false, true, { In.low with mAxisTready := true }⟩

/-- The kernel after some edges of a stream of packets. -/
def traceOf (ps : List RawPacket) (is : List FeedIn) : Trace 2 2 :=
  run Trace.clock (Trace.init 2 2 countingMem ps) is

/-- Queries of two sessions, when the second response is about to leave. -/
def secondAnswer : Trace 2 2 := traceOf [queryPacket 1, queryPacket 2] (twoLines ++ twoLines.take 6)

theorem responses_reach_sender_second :
    responseTaken secondAnswer.feed.kernel.sys.ctrl (secondAnswer.pins answeringEdge) ≠ [] ∧
    secondAnswer.command = some secondAnswer.feed.kernel.flags.txMeta.session := by
  have htaken : responseTaken secondAnswer.feed.kernel.sys.ctrl (secondAnswer.pins answeringEdge) ≠ [] := by
    decide +kernel
  have hok : Meets Trace.clock Trace.Orderly (Trace.init 2 2 countingMem [queryPacket 1, queryPacket 2])
      (twoLines ++ twoLines.take 6) := by
    decide +kernel
  have hatt : secondAnswer.Attributed answeringEdge :=
    responses_reach_sender countingMem _ _ hok answeringEdge
  exact ⟨htaken, hatt.1 htaken⟩

/-- Session 1 sends a query, then a packet that starts without FIRST and holds the header of another
    workload; session 2 sends a query. -/
def strayPackets : List RawPacket := [queryPacket 1, ⟨1, 128, [0, rawHeader 0 64]⟩, queryPacket 2]

/-- The header of session 2 is taken as a command, and answered to session 1. -/
theorem response_to_wrong_session :
    ¬ (traceOf strayPackets (twoLines ++ twoLines ++ twoLines.take 4)).Attributed answeringEdge ∧
    ¬ (traceOf strayPackets (twoLines ++ twoLines ++ twoLines.take 5)).Attributed answeringEdge ∧
    (traceOf strayPackets (twoLines ++ twoLines ++ twoLines.take 5)).command = some 2 ∧
    (traceOf strayPackets (twoLines ++ twoLines ++ twoLines.take 6)).feed.answered.map (·.1) =
      [⟨64, 1⟩, ⟨64, 1⟩] := by
  decide +kernel

end Source

end Frac.PktLogic
