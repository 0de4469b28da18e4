/-
  File:      Frac/Reassembly/Backpressure.lean
  Subject:   What a stall downstream does to the beats upstream: the dispatcher's FIFO and the
             scheduler's output FIFO are written without a look at their `tready`.

  * `FlowSys` -- dispatcher and scheduler with what has crossed each port since the last reset;
  * `Flowing` -- no write meets a full FIFO, and the beats between two ports are all held there, in
    order;
  * `HasRoom` -- at this edge a line comes in, or a beat is read from a queue, only while the FIFO it
    ends up in has a place left for it; `backpressure_with_room` -- in every run of such edges data
    flows;
  * `stalled_controller_drops` -- the controller stalls, lines go on arriving, and one is lost.
-/
import Frac.Reassembly.Conservation
import Frac.Reassembly.Dispatcher

namespace Frac.Reassembly

open Clocked

variable {n : Nat} {τ : Type}

section Run

variable [FifoKind]

/-! ## 1. What has crossed the ports -/

/-- Dispatcher and scheduler with their history since the last reset: the beats the dispatcher has
    accepted, those handed over on its output, the writes to each queue FIFO, the beats read from
    the queues, and those handed over on scheduler `tx`. -/
structure FlowSys (n : Nat) (τ : Type) where
  front : Front n τ
  taken : List (RxBeat τ)
  handed : List (RxBeat τ)
  written : Port n → List (QBeat τ)
  forwarded : List (QBeat τ)
  sent : List (QBeat τ)

def FlowSys.init (n : Nat) (τ : Type) [Inhabited τ] : FlowSys n τ :=
  ⟨Front.reset n τ, [], [], fun _ => [], [], []⟩

/-- The beat handed over on the dispatcher's output at this edge. -/
def Front.handed (f : Front n τ) (reconfReady : Bool) : Option (RxBeat τ) :=
  f.disp.fifo.popped (f.dispReady reconfReady)

def FlowSys.clock [Inhabited τ] (y : FlowSys n τ) (i : FrontIn τ) : FlowSys n τ :=
  if i.rst then FlowSys.init n τ
  else
    { front := y.front.edge i
      taken := y.taken ++ (i.rx.map y.front.disp.combine).toList
      handed := y.handed ++ (y.front.handed i.reconfReady).toList
      written := fun p => y.written p ++ (y.front.sched.written p).toList
      forwarded := y.forwarded ++ y.front.sched.forwarded.toList
      sent := y.sent ++ (y.front.sched.tx i.txTready).toList }

/-- The beats between the queue FIFOs and scheduler `tx`, oldest first. -/
def Sched.outbound (s : Sched n τ) : List (QBeat τ) := s.fifoOut.items ++ s.pipe.items

/-- The line has been written to a queue FIFO, or its write is offered now. -/
def FlowSys.Queued (y : FlowSys n τ) (l : Line τ) : Prop :=
  ∃ p, (∃ x ∈ y.written p, x.line = l) ∨ ∃ x, y.front.sched.inp.strobe p = some x ∧ x.line = l

/-- **Data flows**: no write is offered to a full FIFO, and what has come in and not gone out is
    held between the two ports, in order. -/
structure Flowing (y : FlowSys n τ) : Prop where
  dispRoom : y.front.disp.offered.isSome = true → y.front.disp.fifo.tready = true
  outRoom : y.front.sched.pipe.last.isSome = true → y.front.sched.fifoOut.tready = true
  upstream : y.taken = y.handed ++ y.front.disp.inflight
  queued : ∀ b ∈ y.handed, b.workload ≠ reconfApp → y.Queued b.line
  downstream : y.forwarded = y.sent ++ y.front.sched.outbound

/-! ## 2. The edges at which data flows -/

/-- **There is room for what this edge lets in**: a line for the dispatcher, a beat read from a
    queue, a beat strobed into a queue FIFO. Places that fall free at this edge count. -/
structure HasRoom (f : Front n τ) (i : FrontIn τ) : Prop where
  line : i.rx.isSome = true →
    f.disp.inflight.length < fifoDepth + (f.handed i.reconfReady).toList.length
  beat : f.sched.forwarded.isSome = true →
    f.sched.outbound.length < fifoDepth + (f.sched.tx i.txTready).toList.length
  strobed : ∀ p, (f.sched.inp.strobe p).isSome = true → (f.sched.fifoAt p).tready = true
  routed : ∀ b ∈ f.sched.accepted f.schedRx, (f.sched.route b).port.isSome = true

instance (f : Front n τ) (i : FrontIn τ) : Decidable (HasRoom f i) :=
  decidable_of_iff
    ((i.rx.isSome = true →
        f.disp.inflight.length < fifoDepth + (f.handed i.reconfReady).toList.length) ∧
      (f.sched.forwarded.isSome = true →
        f.sched.outbound.length < fifoDepth + (f.sched.tx i.txTready).toList.length) ∧
      (∀ p, (f.sched.inp.strobe p).isSome = true → (f.sched.fifoAt p).tready = true) ∧
      ∀ b ∈ f.sched.accepted f.schedRx, (f.sched.route b).port.isSome = true)
    ⟨fun h => ⟨h.1, h.2.1, h.2.2.1, h.2.2.2⟩, fun h => ⟨h.line, h.beat, h.strobed, h.routed⟩⟩

/-- The beats before the dispatcher's output and those after the queues fit the FIFOs that have to
    hold them if nothing leaves any more. -/
structure Occupancy (f : Front n τ) : Prop where
  inflight : f.disp.inflight.length ≤ fifoDepth
  outbound : f.sched.outbound.length ≤ fifoDepth

theorem Occupancy.dispRoom {f : Front n τ} (h : Occupancy f) (ho : f.disp.offered.isSome = true) :
    f.disp.fifo.tready = true := by
  obtain ⟨b, hb⟩ := Option.isSome_iff_exists.mp ho
  have hlen := h.inflight
  rw [Disp.inflight, hb, List.length_append] at hlen
  exact Fifo.tready_iff.mpr hlen

theorem Occupancy.outRoom {f : Front n τ} (h : Occupancy f)
    (ho : f.sched.pipe.last.isSome = true) : f.sched.fifoOut.tready = true := by
  obtain ⟨x, hx⟩ := Option.isSome_iff_exists.mp ho
  have hpos : 0 < f.sched.pipe.items.length := List.length_pos_of_mem (Delay.mem_of_last hx)
  have hlen := h.outbound
  rw [Sched.outbound, List.length_append] at hlen
  exact Fifo.tready_iff.mpr (by omega)

/-- The dispatcher keeps what it does not hand over, while its FIFO has room. -/
theorem inflight_step {f : Front n τ}
    (h : f.disp.offered.isSome = true → f.disp.fifo.tready = true) (i : FrontIn τ) :
    (f.handed i.reconfReady).toList ++ (f.edge i).disp.inflight =
      f.disp.inflight ++ (i.rx.map f.disp.combine).toList := by
  show _ ++ (f.disp.edge i.rx (f.dispReady i.reconfReady)).inflight = _
  rw [inflight_edge, ← List.append_assoc, Front.handed, StreamFifo.edge_items, Fifo.written_fits h]
  rfl

/-- Pipeline and output FIFO keep what does not leave on `tx`. -/
theorem outbound_step {f : Front n τ} (h : Occupancy f) (i : FrontIn τ) :
    (f.sched.tx i.txTready).toList ++ (f.edge i).sched.outbound =
      f.sched.outbound ++ f.sched.forwarded.toList := by
  have hfifo := StreamFifo.edge_items f.sched.fifoOut f.sched.pipe.last i.txTready
  have hpipe := Delay.shift_items f.sched.pipe (by decide) f.sched.forwarded
  rw [Fifo.written_fits h.outRoom] at hfifo
  show (f.sched.fifoOut.popped i.txTready).toList ++
    ((f.sched.fifoOut.edge f.sched.pipe.last i.txTready).items ++
      (f.sched.pipe.shift f.sched.forwarded).items) =
      (f.sched.fifoOut.items ++ f.sched.pipe.items) ++ f.sched.forwarded.toList
  rw [← List.append_assoc, hfifo, List.append_assoc, hpipe, List.append_assoc]

theorem occupancy_edge {f : Front n τ} {i : FrontIn τ} (h : Occupancy f) (hr : HasRoom f i) :
    Occupancy (f.edge i) where
  inflight := by
    have hlen := congrArg List.length (inflight_step h.dispRoom i)
    have hold := h.inflight
    rw [List.length_append, List.length_append] at hlen
    cases hrx : i.rx with
    | none =>
        rw [hrx, Option.map_none, Option.toList_none, List.length_nil] at hlen
        omega
    | some l =>
        have hline := hr.line (by rw [hrx]; rfl)
        rw [hrx, Option.map_some, Option.toList_some, List.length_singleton] at hlen
        omega
  outbound := by
    have hlen := congrArg List.length (outbound_step h i)
    have hold := h.outbound
    rw [List.length_append, List.length_append] at hlen
    cases hf : f.sched.forwarded with
    | none =>
        rw [hf, Option.toList_none, List.length_nil] at hlen
        omega
    | some x =>
        have hbeat := hr.beat (by rw [hf]; rfl)
        rw [hf, Option.toList_some, List.length_singleton] at hlen
        omega

/-- An application beat handed over is accepted by the scheduler. -/
theorem accepted_of_handed {f : Front n τ} {ready : Bool} {b : RxBeat τ}
    (h : f.handed ready = some b) (hw : b.workload ≠ reconfApp) :
    f.sched.accepted f.schedRx = some b := by
  unfold Front.handed at h
  cases hd : f.dispReady ready with
  | false => rw [hd] at h; cases h
  | true =>
      rw [hd, StreamFifo.popped_true] at h
      have hready : f.sched.inp.rxTready = true := by
        rw [Front.dispReady, h] at hd
        simpa [hw] using hd
      have hrx : f.schedRx = some b := by
        rw [Front.schedRx, h]
        simp [hw]
      rw [Sched.accepted, hready, hrx]
      rfl

/-- What is queued stays queued, and an application beat handed over is queued. -/
theorem queued_edge [Inhabited τ] {y : FlowSys n τ} {i : FrontIn τ} (hrst : i.rst = false)
    (hr : HasRoom y.front i) (hq : ∀ b ∈ y.handed, b.workload ≠ reconfApp → y.Queued b.line) :
    ∀ b ∈ (y.clock i).handed, b.workload ≠ reconfApp → (y.clock i).Queued b.line := by
  have hclock : y.clock i = _ := if_neg (by simp [hrst])
  rw [hclock]
  intro b hb hw
  rcases List.mem_append.mp hb with hold | hnew
  · obtain ⟨p, ⟨x, hx, hline⟩ | ⟨x, hx, hline⟩⟩ := hq b hold hw
    · exact ⟨p, Or.inl ⟨x, List.mem_append_left _ hx, hline⟩⟩
    · -- the strobe is written at this edge, its FIFO having room
      have hwr : y.front.sched.written p = some x := (Fifo.written_fits (hr.strobed p)).trans hx
      refine ⟨p, Or.inl ⟨x, List.mem_append_right _ ?_, hline⟩⟩
      rw [hwr]
      exact List.mem_singleton_self x
  · have hacc := accepted_of_handed (Option.mem_toList.mp hnew) hw
    obtain ⟨p, hp⟩ := Option.isSome_iff_exists.mp (hr.routed b hacc)
    obtain ⟨x, hx, hline⟩ := strobe_take_self hp
    refine ⟨p, Or.inr ⟨x, ?_, hline⟩⟩
    show (y.front.sched.inEdge y.front.schedRx).strobe p = some x
    rw [inEdge_take hacc]
    exact hx

/-! ## 3. Whole runs -/

theorem occupancy_reset [Inhabited τ] : Occupancy (Front.reset n τ) where
  inflight := Nat.zero_le _
  outbound := by
    show (([] : List (QBeat τ)) ++ (Delay.empty : Delay pipeLength (QBeat τ)).items).length ≤ _
    rw [Delay.empty_items]
    exact Nat.zero_le _

theorem flowing_init [Inhabited τ] : Flowing (FlowSys.init n τ) where
  dispRoom := occupancy_reset.dispRoom
  outRoom := occupancy_reset.outRoom
  upstream := rfl
  queued b hb := by cases hb
  downstream := by
    show [] = [] ++ ([] ++ (Delay.empty : Delay pipeLength (QBeat τ)).items)
    rw [Delay.empty_items]
    rfl

theorem flowing_edge [Inhabited τ] {y : FlowSys n τ} {i : FrontIn τ} (hrst : i.rst = false)
    (hr : HasRoom y.front i) (ho : Occupancy y.front) (h : Flowing y) : Flowing (y.clock i) := by
  have hclock : y.clock i = _ := if_neg (by simp [hrst])
  have hocc := occupancy_edge ho hr
  have hqueued := queued_edge hrst hr h.queued
  rw [hclock] at hqueued ⊢
  refine ⟨hocc.dispRoom, hocc.outRoom, ?_, hqueued, ?_⟩
  · show y.taken ++ _ = (y.handed ++ _) ++ (y.front.edge i).disp.inflight
    rw [h.upstream, List.append_assoc, List.append_assoc, inflight_step ho.dispRoom i]
  · show y.forwarded ++ _ = (y.sent ++ _) ++ (y.front.edge i).sched.outbound
    rw [h.downstream, List.append_assoc, List.append_assoc, outbound_step ho i]

/-- **With room for what comes in, back-pressure drops nothing**: in every run in which a line or a
    beat is let in only while there is a place for it, over any traffic, any stalls of the slots,
    the controller and the transmit side, and any resets, no write is ever offered to a full FIFO,
    and every beat that has come in and not gone out is held in between, in order. -/
theorem backpressure_with_room [Inhabited τ] {y : FlowSys n τ}
    (hr : Reachable FlowSys.clock (fun y i => i.rst = true ∨ HasRoom y.front i)
      (FlowSys.init n τ) y) : Flowing y := by
  have hinit : Occupancy (FlowSys.init n τ).front ∧ Flowing (FlowSys.init n τ) :=
    ⟨occupancy_reset, flowing_init⟩
  refine (hr.invariant (P := fun y => Occupancy y.front ∧ Flowing y) hinit ?_).2
  intro y i ⟨ho, hf⟩ hok
  cases hrst : i.rst with
  | true =>
      rw [FlowSys.clock, if_pos hrst]
      exact hinit
  | false =>
      have hroom : HasRoom y.front i := hok.resolve_left (by simp [hrst])
      refine ⟨?_, flowing_edge hrst hroom ho hf⟩
      rw [FlowSys.clock, if_neg (by simp [hrst])]
      exact occupancy_edge ho hroom

end Run

/-- The two lines of a controller request without payload: the header a client builds, and the
    command line, by its opcode, slot, address and size. -/
def controllerHeader : DispLine Unit where
  length := 128
  connid := 1
  tlast := false
  payload := (0x00ab#16 ++ 0xffff#16 ++ 64#32 ++ BitVec.allOnes 448).cast header_width
  tag := ()

def controllerCommand (opcode slot addr size : Nat) : DispLine Unit where
  length := 128
  connid := 1
  tlast := true
  payload := BitVec.ofNat 512 (opcode + slot * 2 ^ 8 + addr * 2 ^ 64 + size * 2 ^ 128)
  tag := ()

/-- The edge that brings `rx`, with a controller that is ready or not. -/
def frontEdge (rx : Option (DispLine Unit)) (reconfReady : Bool) : FrontIn Unit :=
  ⟨false, rx, true, reconfReady⟩

/-- A `RECONF_ICAP` request goes through to a ready controller. -/
def throughRun : List (FrontIn Unit) :=
  [frontEdge (some controllerHeader) true, frontEdge (some (controllerCommand 3 1 0x4000 4)) true] ++
    List.replicate 4 (frontEdge none true)

section Source

attribute [local instance] axisDataFifos

theorem backpressure_with_room_through :
    Flowing (run FlowSys.clock (FlowSys.init 2 Unit) throughRun) :=
  backpressure_with_room (Reachable.of_run throughRun (by decide +kernel))

end Source

/-! ## 4. A stalled controller -/

/-- The line keeps the label of the controller. -/
def ToController (l : DispLine τ) : Prop := l.requestFirst = true → l.headerWorkload = reconfApp

section Stalled

variable [FifoKind]

/-- The dispatcher holds controller beats only, `m` of them in its FIFO, and offers one more. -/
structure Stalled (d : Disp τ) (m : Nat) : Prop where
  label : d.workloadSelection = reconfApp
  offers : d.combinedValid = true
  combined : d.combined.workload = reconfApp
  held : ∀ b ∈ d.fifo.items, b.workload = reconfApp
  count : d.fifo.items.length = m

theorem Stalled.offered {d : Disp τ} {m : Nat} (h : Stalled d m) :
    d.offered = some d.combined := if_pos h.offers

theorem label_toController {d : Disp τ} (h : d.workloadSelection = reconfApp) {l : DispLine τ}
    (hl : ToController l) : (d.label l).2 = reconfApp := by
  unfold Disp.label
  cases hc : d.configHeader l with
  | false => exact h
  | true => exact hl (Bool.and_eq_true_iff.mp hc).2

/-- A beat for a controller that is not ready is not handed over. -/
theorem handed_stalled {f : Front n τ} {m : Nat} (h : Stalled f.disp m) :
    f.handed false = none := by
  unfold Front.handed Front.dispReady
  cases hh : f.disp.fifo.head? with
  | none =>
      rw [StreamFifo.popped_eq, hh]
      exact ite_self _
  | some b =>
      have hb : b.workload = reconfApp :=
        h.held b (List.mem_of_mem_head? (StreamFifo.head_of_head? hh))
      simp [hb]

/-- A stalled controller lets the FIFO fill: each line adds a beat while there is room. -/
theorem stalled_edge {f : Front n τ} {m : Nat} (h : Stalled f.disp m) (hm : m < fifoDepth)
    {i : FrontIn τ} (hstall : i.reconfReady = false) {l : DispLine τ} (hrx : i.rx = some l)
    (hl : ToController l) : Stalled (f.edge i).disp (m + 1) := by
  have hlabel := label_toController h.label hl
  have hfit : f.disp.fifo.tready = true := Fifo.tready_iff.mpr (h.count ▸ hm)
  have hitems : (f.edge i).disp.fifo.items = f.disp.fifo.items ++ [f.disp.combined] := by
    have hstep := StreamFifo.edge_items f.disp.fifo f.disp.offered (f.dispReady i.reconfReady)
    have hnone : f.disp.fifo.popped (f.dispReady i.reconfReady) = none := by
      rw [hstall]
      exact handed_stalled h
    rw [hnone, h.offered, Fifo.written_some hfit] at hstep
    show (f.disp.edge i.rx _).fifo.items = _
    rw [fifo_edge, h.offered]
    exact hstep
  have hedge : (f.edge i).disp = f.disp.edge (some l) (f.dispReady i.reconfReady) := by
    rw [← hrx]
    rfl
  refine ⟨by rw [hedge]; exact hlabel, by rw [hedge]; rfl, by rw [hedge]; exact hlabel, ?_, ?_⟩
  · intro b hb
    rw [hitems] at hb
    rcases List.mem_append.mp hb with hb | hb
    · exact h.held b hb
    · rw [List.mem_singleton.mp hb]
      exact h.combined
  · rw [hitems, List.length_append, h.count]
    rfl

/-- `k` lines into a stalled controller's dispatcher. -/
theorem stalled_run [Inhabited τ] {y : FlowSys n τ} {m : Nat} (h : Stalled y.front.disp m)
    (is : List (FrontIn τ)) (hm : m + is.length ≤ fifoDepth)
    (his : ∀ i ∈ is, i.rst = false ∧ i.reconfReady = false ∧ ∃ l, i.rx = some l ∧ ToController l) :
    Stalled (run FlowSys.clock y is).front.disp (m + is.length) := by
  induction is generalizing y m with
  | nil => exact h
  | cons i is ih =>
      obtain ⟨hrst, hstall, l, hrx, hl⟩ := his i (List.mem_cons_self ..)
      rw [List.length_cons, Nat.add_comm is.length, ← Nat.add_assoc] at hm ⊢
      refine ih ?_ hm fun j hj => his j (List.mem_cons_of_mem i hj)
      rw [FlowSys.clock, if_neg (by simp [hrst])]
      exact stalled_edge h (by omega) hstall hrx hl

end Stalled

/-- The controller is busy with the request of `throughRun`; a client asks for its status. -/
def busyRun : List (FrontIn Unit) := throughRun ++ [frontEdge (some controllerHeader) false]

def queryAgain : List (FrontIn Unit) :=
  [frontEdge (some (controllerCommand 4 0 0 0)) false, frontEdge (some controllerHeader) false]

section Source

attribute [local instance] axisDataFifos

/-- **A stalled controller fills the dispatcher's FIFO and the next beat is lost**: the dispatcher
    stays ready and offers a full FIFO a write. -/
theorem stalled_controller_drops :
    ¬ ∀ y : FlowSys 2 Unit, Reachable FlowSys.clock (fun _ _ => True) (FlowSys.init 2 Unit) y →
      Flowing y := by
  intro h
  have hbusy : Stalled (run FlowSys.clock (FlowSys.init 2 Unit) busyRun).front.disp 0 :=
    ⟨by decide +kernel, by decide +kernel, by decide +kernel, by decide +kernel, by decide +kernel⟩
  have hlines : ∀ i ∈ (List.replicate 257 queryAgain).flatten,
      i.rst = false ∧ i.reconfReady = false ∧ ∃ l, i.rx = some l ∧ ToController l := by
    intro i hi
    obtain ⟨is, his, hi⟩ := List.mem_flatten.mp hi
    rw [List.eq_of_mem_replicate his] at hi
    rcases List.mem_cons.mp hi with rfl | hi
    · exact ⟨rfl, rfl, _, rfl, by unfold ToController; decide +kernel⟩
    · rw [List.mem_singleton.mp hi]
      exact ⟨rfl, rfl, _, rfl, by unfold ToController; decide +kernel⟩
  have hlen : ((List.replicate 257 queryAgain).flatten).length = fifoDepth := by decide +kernel
  have hfull := stalled_run hbusy _ (by rw [Nat.zero_add, hlen]) hlines
  rw [← run_append, Nat.zero_add, hlen] at hfull
  have hflow := h _ (Reachable.of_run (busyRun ++ (List.replicate 257 queryAgain).flatten)
    (Meets.of_forall (fun _ _ => trivial) _ _))
  have hroom := hflow.dispRoom (by rw [hfull.offered]; rfl)
  have hlt := Fifo.tready_iff.mp hroom
  rw [hfull.count] at hlt
  exact Nat.lt_irrefl _ hlt

end Source

end Frac.Reassembly
