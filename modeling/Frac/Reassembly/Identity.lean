/-
  File:      Frac/Reassembly/Identity.lean
  Subject:   Requests on many sessions, interleaved packet by packet through dispatcher and
             scheduler: in which runs every line leaves with the workload, size and session of its
             own request.

  * `Sessions` -- the requests under way on each session, as a sequence of lines makes them;
    `WellFormed` -- the lines that continue or open a request properly;
  * `QueuesInv` -- each open request owns one queue, and the queue holds its label and its bytes
    (`queuesInv_take`);
  * `FrontInv` -- the lines between the dispatcher's input and the scheduler continue what the
    scheduler has seen to what the dispatcher has;
  * `requests_keep_identity` -- in every run in which no header finds the dispatcher busy with
    another label, every line leaves as its own request's; `header_hidden_by_open_request` --
    otherwise a request leaves under another's workload.
-/
import Mathlib.Data.Fintype.Card
import Frac.Lib.Clocked
import Frac.Reassembly.Dispatcher
import Frac.Reassembly.Ownership

namespace Frac.Reassembly

open Clocked

variable {n : Nat}

/-! ## 1. Requests on sessions -/

/-- An application request, as its header declares it and on the session it comes by. -/
structure Req where
  workload : BitVec 16
  size : BitVec 32
  session : BitVec 16
  deriving DecidableEq, Inhabited

/-- A request under way: the bytes of those of its packets that have ended. -/
structure Progress where
  req : Req
  bytes : Nat
  deriving DecidableEq

/-- The request under way on each session. -/
abbrev Sessions := BitVec 16 → Option Progress

def Sessions.none : Sessions := fun _ => Option.none

/-- The bytes of the ended packets of the session's request. -/
def Sessions.bytes (o : Sessions) (c : BitVec 16) : Nat := ((o c).map (·.bytes)).getD 0

/-- The bytes counted when the line `l` has passed. -/
def Sessions.after (o : Sessions) (l : DispLine Req) : Nat :=
  o.bytes l.connid + if l.tlast then l.length.toNat else 0

/-- The line ends its request. -/
def Sessions.ends (o : Sessions) (l : DispLine Req) : Bool :=
  l.tlast && decide (l.tag.size.toNat ≤ o.after l)

/-- The sessions after the line `l`, which is tagged with its request. -/
def Sessions.next (o : Sessions) (l : DispLine Req) : Sessions :=
  Function.update o l.connid (if o.ends l then Option.none else some ⟨l.tag, o.after l⟩)

/-- At most `n` sessions have a request under way: of any `n + 1`, one has none. -/
def Sessions.atMost (n : Nat) (o : Sessions) : Prop :=
  ∀ f : Fin (n + 1) → BitVec 16, Function.Injective f → ∃ k, o (f k) = Option.none

/-- **The line continues its session's request, or opens one**: its first line is a header that
    declares it, and its packets add up to its size. -/
structure Continues (o : Sessions) (l : DispLine Req) : Prop where
  session : l.connid = l.tag.session
  app : l.tag.workload ≠ reconfApp
  first : o l.connid = Option.none →
    l.requestFirst = true ∧ l.headerWorkload = l.tag.workload ∧ l.headerPacketSize = l.tag.size
  rest : ∀ p ∈ o l.connid, p.req = l.tag
  packet : l.tlast = true → 0 < l.length.toNat ∧ o.after l ≤ l.tag.size.toNat

/-- A proper line that leaves at most `n` requests incomplete. -/
structure WellFormed (n : Nat) (o : Sessions) (l : DispLine Req) : Prop extends Continues o l where
  incomplete : (o.next l).atMost n

/-- The line of a labelled beat. -/
def RxBeat.toLine {τ : Type} (b : RxBeat τ) : DispLine τ :=
  ⟨b.length, b.connid, b.tlast, b.payload, b.tag⟩

/-! ## 2. The queues -/

/-- The books are those of the request `p`. -/
structure Books.Follows (bk : Books) (p : Progress) : Prop where
  session : p.req.session = bk.qmeta.connid
  workload : bk.qmeta.workload = p.req.workload
  size : bk.counter = p.req.size
  bytes : bk.counterInst.toNat = p.bytes

/-- **Each request under way has its own queue**, and every other queue is free. -/
structure QueuesInv (o : Sessions) (r : InRegs n Req) : Prop where
  ready : r.rxTready = true
  single : r.metaSingle = QMeta.free
  owns : Owns o Books.Follows r.books

theorem queuesInv_reset : QueuesInv Sessions.none (InRegs.reset : InRegs n Req) :=
  ⟨rfl, rfl, owns_closed⟩

/-- A beat as the scheduler meets it: well formed, and a header carries its own label. -/
structure BeatOk (n : Nat) (o : Sessions) (b : RxBeat Req) : Prop where
  line : WellFormed n o b.toLine
  label : o b.connid = Option.none → b.workload = b.tag.workload ∧ b.packetSize = b.tag.size
  app : b.workload ≠ reconfApp
  proper : b.connid ≠ BitVec.allOnes 16

/-- Every FIFO the beat may be meant for has room. -/
def Roomy [FifoKind] (s : Sched n Req) (b : RxBeat Req) : Prop :=
  s.fifoSingle.tready = true ∧
    ∀ k, (s.inp.queue k).qmeta.connid = b.connid → (s.fifo k).tready = true

instance [FifoKind] (s : Sched n Req) (b : RxBeat Req) : Decidable (Roomy s b) :=
  inferInstanceAs (Decidable (_ ∧ _))

/-- The beat carries workload, size and session of its own request; of the size, the low half,
    which is what `tx` has wires for. -/
structure Good (x : QBeat Req) : Prop where
  workload : x.workload = x.tag.workload
  size : x.size = x.tag.size.extractLsb' 0 16
  session : x.connid = x.tag.session

/-- With at most `n` requests incomplete, one that is not yet complete finds a free queue. -/
theorem exists_free {o : Sessions} {r : InRegs n Req} {b : RxBeat Req} (hI : QueuesInv o r)
    (hp : b.connid ≠ BitVec.allOnes 16) (ho : o b.connid = Option.none)
    (hopen : o.ends b.toLine = false) (hmost : (o.next b.toLine).atMost n) :
    ∃ k, (r.queue k).qmeta = QMeta.free := by
  by_contra hno
  have hbusy : ∀ k, ∃ p, o (r.queue k).qmeta.connid = some p := fun k => by
    rcases hI.owns.queue k with h | ⟨p, h, -⟩
    · exact absurd ⟨k, h⟩ hno
    · exact ⟨p, h⟩
  have hne : ∀ k, (r.queue k).qmeta.connid ≠ b.connid := owns_unmatched hI.owns hp ho
  -- the sessions of all queues and the header's own are n + 1 sessions with a request
  obtain ⟨k, hk⟩ := hmost (Fin.cons b.connid fun k => (r.queue k).qmeta.connid) (by
    rw [Fin.cons_injective_iff]
    refine ⟨fun ⟨k, hk⟩ => hne k hk, fun j k hjk => ?_⟩
    exact hI.owns.unique j k (fun e => hno ⟨j, e⟩) hjk)
  cases k using Fin.cases with
  | zero =>
      rw [Fin.cons_zero] at hk
      have e : (o.next b.toLine) b.connid = some ⟨b.tag, o.after b.toLine⟩ := by
        show Function.update o b.connid _ b.connid = _
        rw [Function.update_self, hopen]
        rfl
      rw [e] at hk
      cases hk
  | succ j =>
      rw [Fin.cons_succ] at hk
      obtain ⟨p, hj⟩ := hbusy j
      have e : (o.next b.toLine) (r.queue j).qmeta.connid = some p := by
        show Function.update o b.connid _ _ = _
        rw [Function.update_of_ne (hne j)]
        exact hj
      rw [e] at hk
      cases hk

/-! ## 3. One accepted beat -/

section Accept

variable {o : Sessions} {b : RxBeat Req}

/-- The byte count of a queue does not overflow on a well-formed line. -/
theorem counted_toNat (hw : WellFormed n o b.toLine) {acc : BitVec 32}
    (hacc : acc.toNat = o.bytes b.connid) : (countedBytes b acc).toNat = o.after b.toLine := by
  have hafter : o.after b.toLine = acc.toNat + if b.tlast then b.length.toNat else 0 := by
    rw [hacc]
    rfl
  rw [hafter]
  refine countedBytes_toNat ?_
  cases ht : b.tlast with
  | false => exact acc.isLt
  | true =>
      have hle := (hw.packet ht).2
      rw [hafter, ht] at hle
      exact Nat.lt_of_le_of_lt hle b.tag.size.isLt

/-- The queue sees the end of its request exactly where it is. -/
theorem counted_ge_iff_ends (hw : WellFormed n o b.toLine) {size acc : BitVec 32}
    (hsize : size = b.tag.size) (hacc : acc.toNat = o.bytes b.connid) :
    (b.tlast && decide (acc + b.length.setWidth 32 ≥ size)) = o.ends b.toLine := by
  have hcount := counted_toNat hw hacc
  unfold Sessions.ends
  unfold countedBytes at hcount
  cases ht : b.tlast with
  | false => simp [RxBeat.toLine, ht]
  | true =>
      rw [ht, if_pos rfl] at hcount
      show (true && decide (size.toNat ≤ (acc + b.length.setWidth 32).toNat)) = _
      rw [hcount, hsize]
      simp [RxBeat.toLine, ht]

/-- Session and queue after a beat of the request: both closed, or both one beat further on. -/
theorem follows_counted (hw : WellFormed n o b.toLine) {m : QMeta} {size acc : BitVec 32}
    (hsize : size = b.tag.size) (hacc : acc.toNat = o.bytes b.connid) (hconn : m.connid = b.connid)
    (hwork : m.workload = b.tag.workload) {v : Option Progress} {bk : Books}
    (hv : v = if o.ends b.toLine then Option.none else some ⟨b.tag, o.after b.toLine⟩)
    (hbk : bk = if b.tlast && decide (acc + b.length.setWidth 32 ≥ size) then Books.closed
      else ⟨m, size, countedBytes b acc⟩) :
    (v = Option.none → bk.qmeta = QMeta.free) ∧
    ∀ p, v = some p → bk.qmeta.connid = b.connid ∧ bk.Follows p := by
  rw [counted_ge_iff_ends hw hsize hacc] at hbk
  cases he : o.ends b.toLine with
  | true =>
      rw [he, if_pos rfl] at hv hbk
      refine ⟨fun _ => by rw [hbk]; rfl, fun p hp => ?_⟩
      rw [hv] at hp
      cases hp
  | false =>
      rw [he, if_neg (by simp)] at hv hbk
      refine ⟨fun h => (by rw [hv] at h; cases h), fun p hp => ?_⟩
      rw [hv] at hp
      cases hp
      rw [hbk]
      exact ⟨hconn, hw.session.symm.trans hconn.symm, hwork, hsize, counted_toNat hw hacc⟩

theorem good_count {q : QueueRegs Req} {d : QBeat Req} {acc : BitVec 32} (hd : Good d) :
    Good (q.count b d acc).tdata := by
  rw [count_eq]
  split
  · exact ⟨hd.workload, hd.size, hd.session⟩
  · exact ⟨hd.workload, hd.size, hd.session⟩

/-- A header ends its request exactly when its packet is the whole of it. -/
theorem header_ends_iff (hw : WellFormed n o b.toLine) (ho : o b.connid = Option.none)
    (hls : b.packetSize = b.tag.size) :
    o.ends b.toLine = true ↔ b.packetSize = b.length.setWidth 32 ∧ b.tlast = true := by
  have hafter : b.tlast = true → o.after b.toLine = b.length.toNat := by
    intro ht
    simp [Sessions.after, Sessions.bytes, RxBeat.toLine, ht, ho]
  have hlen : (b.length.setWidth 32).toNat = b.length.toNat := by
    rw [BitVec.toNat_setWidth]
    have := b.length.isLt
    omega
  constructor
  · intro he
    obtain ⟨ht, hle⟩ := Bool.and_eq_true_iff.mp he
    have ht' : b.tlast = true := ht
    have hle' : b.tag.size.toNat ≤ o.after b.toLine := of_decide_eq_true hle
    have hge : o.after b.toLine ≤ b.tag.size.toNat := (hw.packet ht).2
    refine ⟨BitVec.eq_of_toNat_eq ?_, ht'⟩
    rw [hls, hlen, ← hafter ht']
    omega
  · rintro ⟨hsize, ht⟩
    refine Bool.and_eq_true_iff.mpr ⟨ht, decide_eq_true ?_⟩
    rw [hafter ht, ← hlen, ← hsize, hls]
    exact Nat.le_refl _

variable [FifoKind] {s : Sched n Req}

/-- A beat of a request under way goes to its queue, and leaves it with its own label. -/
theorem queuesInv_continue (hI : QueuesInv o s.inp) (hb : BeatOk n o b) (hroom : Roomy s b)
    {p : Progress} (ho : o b.connid = some p) :
    QueuesInv (o.next b.toLine) (s.take b) ∧
    ∃ p x, (s.route b).port = some p ∧ (s.take b).strobe p = some x ∧ Good x := by
  have hw := hb.line
  obtain ⟨k, hroute, hk, hfol⟩ := route_owned hI.owns hI.single hb.proper hroom.2 ho
  have hport : (s.route b).port = some (.queue k) := by rw [hroute]; rfl
  have hreq : p.req = b.tag := hw.rest p ho
  have hsize : (s.inp.queue k).counter = b.tag.size := by rw [← hreq]; exact hfol.size
  have hwork : (s.inp.queue k).qmeta.workload = b.tag.workload := by
    rw [← hreq]
    exact hfol.workload
  have hacc : (s.inp.queue k).counterInst.toNat = o.bytes b.connid := by
    rw [Sessions.bytes, ho]
    exact hfol.bytes
  refine ⟨⟨take_rxTready hport, take_metaSingle hI.single b, ?_⟩, .queue k,
    ((s.cleared k).extend b).tdata, hport, ?_, ?_⟩
  · rw [books_take_match hroute]
    obtain ⟨hnone, hsome⟩ := follows_counted hw hsize hacc hk hwork rfl rfl
    exact owns_update hI.owns hb.proper (Or.inr hk)
      (fun j hj => owns_unique hI.owns hb.proper hj hk) hnone hsome
  · unfold Sched.take
    rw [hroute]
    simp [InRegs.strobe, QueueRegs.extend, count_tvalid]
  · exact good_count ⟨hwork, by rw [← hsize]; rfl, hw.session⟩

/-- The first beat of a request is complete in itself or opens a free queue. -/
theorem queuesInv_open (hI : QueuesInv o s.inp) (hb : BeatOk n o b) (hroom : Roomy s b)
    (ho : o b.connid = Option.none) :
    QueuesInv (o.next b.toLine) (s.take b) ∧
    ∃ p x, (s.route b).port = some p ∧ (s.take b).strobe p = some x ∧ Good x := by
  have hw := hb.line
  obtain ⟨hlw, hls⟩ := hb.label ho
  have hhead : b.isHeader = true := (hw.first ho).1
  rcases route_unowned hI.owns hI.single hb.proper ho with ⟨hroute, hfit⟩ | ⟨hfit, hrest⟩
  · have hport : (s.route b).port = some .single := by rw [hroute]; rfl
    have hends : o.ends b.toLine = true := (header_ends_iff hw ho hls).mpr (fitsSingle_size hfit)
    refine ⟨⟨take_rxTready hport, take_metaSingle hI.single b, ?_⟩, .single, _, hport,
      by unfold Sched.take; rw [hroute]; rfl, ⟨hlw, by rw [← hls]; rfl, hw.session⟩⟩
    rw [books_take_single hroute]
    show Owns (Function.update o b.connid (if o.ends b.toLine then Option.none else _)) _ _
    rw [if_pos hends, ← ho, Function.update_eq_self]
    exact hI.owns
  have hopen : o.ends b.toLine = false := by
    refine Bool.eq_false_iff.mpr fun he => ?_
    obtain ⟨h1, h2⟩ := (header_ends_iff hw ho hls).mp he
    have : s.fitsSingle b = true := by
      simp [Sched.fitsSingle, hhead, hI.single, h1, h2, hroom.1]
    rw [this] at hfit
    cases hfit
  rcases hrest with ⟨k, hroute, hfree⟩ | ⟨-, hno⟩
  · have hport : (s.route b).port = some (.queue k) := by rw [hroute]; rfl
    have hzero : (0 : BitVec 32).toNat = o.bytes b.connid := by rw [Sessions.bytes, ho]; rfl
    refine ⟨⟨take_rxTready hport, take_metaSingle hI.single b, ?_⟩, .queue k,
      ((s.cleared k).allocate b).tdata, hport, ?_, ?_⟩
    · rw [books_take_alloc hroute]
      obtain ⟨hnone, hsome⟩ := follows_counted (m := ⟨b.dstPort, b.workload, b.connid⟩) hw hls hzero
        rfl hlw rfl rfl
      exact owns_update hI.owns hb.proper (Or.inl hfree)
        (fun j hj => absurd hj (owns_unmatched hI.owns hb.proper ho j)) hnone hsome
    · unfold Sched.take
      rw [hroute]
      simp [InRegs.strobe, QueueRegs.allocate, count_tvalid]
    · exact good_count ⟨hlw, by rw [← hls]; rfl, hw.session⟩
  · obtain ⟨k, hk⟩ := exists_free hI hb.proper ho hopen hw.incomplete
    have := hno k
    simp [Sched.canAlloc, hhead, hk] at this

/-- **One accepted beat keeps each request in its own queue**, and is strobed as its own request's. -/
theorem queuesInv_take (hI : QueuesInv o s.inp) (hb : BeatOk n o b) (hroom : Roomy s b) :
    QueuesInv (o.next b.toLine) (s.take b) ∧
    ∃ p x, (s.route b).port = some p ∧ (s.take b).strobe p = some x ∧ Good x := by
  cases ho : o b.connid with
  | some p => exact queuesInv_continue hI hb hroom ho
  | none => exact queuesInv_open hI hb hroom ho

end Accept

/-! ## 4. Dispatcher and scheduler in a run -/

section Run

variable [FifoKind]

/-- Dispatcher and scheduler with the requests under way at the dispatcher's input and at the
    scheduler's, both since the last reset. -/
structure FrontSys (n : Nat) where
  front : Front n Req
  env : Sessions
  seen : Sessions

def FrontSys.init (n : Nat) : FrontSys n := ⟨Front.reset n Req, Sessions.none, Sessions.none⟩

/-- The beat the scheduler accepts at this edge. -/
def Front.taken {τ : Type} (f : Front n τ) : Option (RxBeat τ) := f.sched.accepted f.schedRx

def FrontSys.clock (y : FrontSys n) (i : FrontIn Req) : FrontSys n :=
  if i.rst then FrontSys.init n
  else
    { front := y.front.edge i
      env := i.rx.elim y.env y.env.next
      seen := y.front.taken.elim y.seen fun b => y.seen.next b.toLine }

/-- **The dispatcher is free for the header**, or its label happens to be the header's; and it takes
    no other line for a reconfiguration header. -/
structure Recognised (d : Disp Req) (o : Sessions) (l : DispLine Req) : Prop where
  header : o l.connid = Option.none → d.expectingHeader = true ∨
    d.workloadSelection = l.tag.workload ∧ d.packetSize = l.tag.size
  other : (o l.connid).isSome = true → ¬ (d.configHeader l = true ∧ l.headerWorkload = reconfApp)

/-- Well-formed traffic, nothing more. -/
def FrontTraffic (y : FrontSys n) (i : FrontIn Req) : Prop := ∀ l ∈ i.rx, WellFormed n y.env l

/-- **No label is mixed up at this edge**: the dispatcher recognises the line, its session is not
    `0xFFFF`, and the beat the scheduler accepts has room in the FIFO it is meant for. -/
structure KeepsLabels (y : FrontSys n) (i : FrontIn Req) : Prop where
  recognised : ∀ l ∈ i.rx, Recognised y.front.disp y.env l
  proper : ∀ l ∈ i.rx, l.connid ≠ BitVec.allOnes 16
  roomy : ∀ b ∈ y.front.taken, Roomy y.front.sched b

/-- The sessions after a labelled beat. -/
def Sessions.step (o : Sessions) (b : RxBeat Req) : Sessions := o.next b.toLine

/-- **Dispatcher and scheduler agree on the traffic**: the beats under way between them are well
    formed and labelled, and lead from what the scheduler has seen to what the dispatcher has. -/
structure FrontInv (y : FrontSys n) : Prop where
  stream : Meets Sessions.step (BeatOk n) y.seen y.front.disp.inflight
  ahead : run Sessions.step y.seen y.front.disp.inflight = y.env
  short : y.front.disp.fifo.items.length ≤ y.front.disp.fifo.recent.count true + 1
  queues : QueuesInv y.seen y.front.sched.inp
  good : y.front.sched.All Good
  label : y.front.disp.workloadSelection ≠ reconfApp

theorem frontInv_init : FrontInv (FrontSys.init n) where
  stream := trivial
  ahead := rfl
  short := Nat.zero_le _
  queues := queuesInv_reset
  good := all_reset Good
  label := (by decide : (0 : BitVec 16) ≠ reconfApp)

section Front

variable {τ : Type} {f : Front n τ}

/-- The head of the dispatcher's FIFO is for the scheduler, which takes it. -/
theorem front_taken (hready : f.sched.inp.rxTready = true)
    (happ : ∀ b ∈ f.disp.fifo.items, b.workload ≠ reconfApp) : f.taken = f.disp.fifo.head? := by
  unfold Front.taken Sched.accepted Front.schedRx
  rw [hready, if_pos rfl]
  cases hh : f.disp.fifo.head? with
  | none => rfl
  | some b =>
      have hb := happ b (List.mem_of_mem_head? (StreamFifo.head_of_head? hh))
      simp [hb]

/-- The dispatcher's FIFO is read at every edge. -/
theorem front_dispReady (hready : f.sched.inp.rxTready = true)
    (happ : ∀ b ∈ f.disp.fifo.items, b.workload ≠ reconfApp) (ready : Bool) :
    f.dispReady ready = true := by
  unfold Front.dispReady
  cases hh : f.disp.fifo.head? with
  | none => simp [hready]
  | some b =>
      have hb := happ b (List.mem_of_mem_head? (StreamFifo.head_of_head? hh))
      simp [hb, hready]

/-- The scheduler takes the oldest beat under way, and the rest stays. -/
theorem front_split (hready : f.sched.inp.rxTready = true)
    (happ : ∀ b ∈ f.disp.fifo.items, b.workload ≠ reconfApp) (hroom : f.disp.fifo.tready = true) :
    f.disp.inflight = f.taken.toList ++ (f.disp.fifo.edge f.disp.offered true).items := by
  have hitems := StreamFifo.edge_items f.disp.fifo f.disp.offered true
  rw [Fifo.written, if_pos hroom] at hitems
  rw [front_taken hready happ]
  exact hitems.symm

/-- The beats under way after an edge. -/
theorem front_inflight (hready : f.sched.inp.rxTready = true)
    (happ : ∀ b ∈ f.disp.fifo.items, b.workload ≠ reconfApp) (i : FrontIn τ) :
    (f.edge i).disp.inflight =
      (f.disp.fifo.edge f.disp.offered true).items ++ (i.rx.map f.disp.combine).toList := by
  show (f.disp.edge i.rx (f.dispReady i.reconfReady)).inflight = _
  rw [inflight_edge, front_dispReady hready happ]

end Front

section Edge

variable {y : FrontSys n} {i : FrontIn Req} (hI : FrontInv y)
include hI

/-- The beats in the dispatcher's FIFO are for the scheduler. -/
theorem items_app : ∀ b ∈ y.front.disp.fifo.items, b.workload ≠ reconfApp := by
  have hs := ((meets_append ..).mp hI.stream).1
  have happ : Meets Sessions.step (fun _ b => b.workload ≠ reconfApp) y.seen y.front.disp.fifo.items :=
    hs.mono fun _ _ h => h.app
  exact happ.mem

theorem inflight_split :
    y.front.disp.inflight =
      y.front.taken.toList ++ (y.front.disp.fifo.edge y.front.disp.offered true).items :=
  front_split hI.queues.ready (items_app hI)
    (Fifo.tready_iff.mpr (Nat.lt_of_le_of_lt (StreamFifo.length_of_short hI.short) FifoKind.deep))

end Edge

/-- The label a recognised line leaves with is not the reconfiguration controller's, and a header's is
    its own. -/
theorem label_recognised {d : Disp Req} {o : Sessions} {l : DispLine Req} (hw : WellFormed n o l)
    (hr : Recognised d o l) (hd : d.workloadSelection ≠ reconfApp) :
    (d.label l).2 ≠ reconfApp ∧
      (o l.connid = Option.none → (d.label l).2 = l.tag.workload ∧ (d.label l).1 = l.tag.size) := by
  have hhead : o l.connid = Option.none →
      (d.label l).2 = l.tag.workload ∧ (d.label l).1 = l.tag.size := by
    intro ho
    obtain ⟨h1, h2, h3⟩ := hw.first ho
    unfold Disp.label Disp.configHeader
    rw [h1]
    cases he : d.expectingHeader with
    | true => exact ⟨h2, h3⟩
    | false =>
        rcases hr.header ho with h | h
        · rw [he] at h; cases h
        · exact h
  refine ⟨?_, hhead⟩
  cases ho : o l.connid with
  | none => rw [(hhead ho).1]; exact hw.app
  | some p =>
      unfold Disp.label
      split
      · rename_i hc
        exact fun e => hr.other (by rw [ho]; rfl) ⟨hc, e⟩
      · exact hd

/-- The beat a recognised line becomes. -/
theorem beatOk_combine {d : Disp Req} {o : Sessions} {l : DispLine Req} (hw : WellFormed n o l)
    (hr : Recognised d o l) (hd : d.workloadSelection ≠ reconfApp)
    (hp : l.connid ≠ BitVec.allOnes 16) : BeatOk n o (d.combine l) := by
  obtain ⟨happ, hlabel⟩ := label_recognised hw hr hd
  exact ⟨hw, hlabel, happ, hp⟩

/-- The scheduler's part of an edge: queues and strobes after the beat it takes. -/
theorem sched_edge {y : FrontSys n} (hI : FrontInv y)
    (htaken : Meets Sessions.step (BeatOk n) y.seen y.front.taken.toList)
    (hroom : ∀ b ∈ y.front.taken, Roomy y.front.sched b) :
    QueuesInv (y.front.taken.elim y.seen fun b => y.seen.next b.toLine)
        (y.front.sched.inEdge y.front.schedRx) ∧
      ∀ p x, (y.front.sched.inEdge y.front.schedRx).strobe p = some x → Good x := by
  unfold Sched.inEdge
  rw [show y.front.sched.accepted y.front.schedRx = y.front.taken from rfl]
  cases ht : y.front.taken with
  | none =>
      refine ⟨⟨rfl, hI.queues.single, hI.queues.owns⟩, fun p x hx => ?_⟩
      rw [show (y.front.sched.idle).strobe p = Option.none from strobe_idle _ p] at hx
      cases hx
  | some b =>
      rw [ht] at htaken
      obtain ⟨hq, p, x, hp, hx, hgood⟩ := queuesInv_take hI.queues htaken.1 (hroom b ht)
      refine ⟨hq, fun p' x' hx' => ?_⟩
      by_cases hpp : (y.front.sched.route b).port = some p'
      · cases Option.some_injective _ (hp.symm.trans hpp)
        cases Option.some_injective _ (hx.symm.trans hx')
        exact hgood
      · exact hI.good.strobe p' x' ((strobe_take_other hpp).symm.trans hx')

theorem frontInv_edge {y : FrontSys n} {i : FrontIn Req} (hI : FrontInv y) (hrst : i.rst = false)
    (htraffic : FrontTraffic y i) (hok : KeepsLabels y i) : FrontInv (y.clock i) := by
  rw [FrontSys.clock, if_neg (by simp [hrst])]
  -- what the scheduler takes, and what is still under way after it
  have hstream := hI.stream
  have hahead := hI.ahead
  rw [inflight_split hI, meets_append] at hstream
  rw [inflight_split hI, run_append] at hahead
  obtain ⟨htaken, hrest⟩ := hstream
  have hseen : run Sessions.step y.seen y.front.taken.toList =
      y.front.taken.elim y.seen fun b => y.seen.next b.toLine := by
    cases y.front.taken <;> rfl
  rw [hseen] at hrest hahead
  obtain ⟨hqueues, hstrobe⟩ := sched_edge hI htaken hok.roomy
  have hinfl := front_inflight hI.queues.ready (items_app hI) i
  have hshort : (y.front.edge i).disp.fifo.items.length ≤
      (y.front.edge i).disp.fifo.recent.count true + 1 := by
    have hfifo : (y.front.edge i).disp.fifo = y.front.disp.fifo.edge y.front.disp.offered true := by
      show (y.front.disp.edge i.rx (y.front.dispReady i.reconfReady)).fifo = _
      rw [fifo_edge, front_dispReady hI.queues.ready (items_app hI)]
    rw [hfifo]
    exact StreamFifo.edge_short hI.short _
  have hall := all_edge hI.good hstrobe i.txTready
  cases hrx : i.rx with
  | none =>
      rw [hrx] at hinfl
      refine ⟨?_, ?_, hshort, hqueues, hall, ?_⟩
      · show Meets _ _ _ (y.front.edge i).disp.inflight
        rw [hinfl]
        simpa using hrest
      · show run _ _ (y.front.edge i).disp.inflight = y.env
        rw [hinfl]
        simpa using hahead
      · show (y.front.disp.edge i.rx _).workloadSelection ≠ reconfApp
        rw [hrx]
        exact hI.label
  | some l =>
      rw [hrx] at hinfl
      have hw := htraffic l hrx
      have hrec := hok.recognised l hrx
      refine ⟨?_, ?_, hshort, hqueues, hall, ?_⟩
      · show Meets _ _ _ (y.front.edge i).disp.inflight
        rw [hinfl, meets_append]
        refine ⟨hrest, ?_, trivial⟩
        rw [hahead]
        exact beatOk_combine hw hrec hI.label (hok.proper l hrx)
      · show run _ _ (y.front.edge i).disp.inflight = y.env.next l
        rw [hinfl, run_append, hahead]
        rfl
      · show (y.front.disp.edge i.rx _).workloadSelection ≠ reconfApp
        rw [hrx]
        exact (label_recognised hw hrec hI.label).1

/-- **In every run of recognised traffic requests keep their own identity**: a line that leaves the
    scheduler carries the workload and the size its own request's header declares, and its own
    request's session, whatever passed the dispatcher in between. -/
theorem requests_keep_identity {y : FrontSys n}
    (hr : Reachable FrontSys.clock (fun y i => FrontTraffic y i ∧ KeepsLabels y i)
      (FrontSys.init n) y) {txTready : Bool} {x : QBeat Req}
    (hx : y.front.sched.tx txTready = some x) : Good x := by
  have hI : FrontInv y := by
    refine hr.invariant frontInv_init fun y i hI ⟨htraffic, hok⟩ => ?_
    cases hrst : i.rst with
    | true =>
        rw [FrontSys.clock, if_pos hrst]
        exact frontInv_init
    | false => exact frontInv_edge hI hrst htraffic hok
  exact hI.good.out x (StreamFifo.mem_of_popped hx)

end Run

/-! ## 5. Two runs, with the FIFOs of the source -/

/-- Only the sessions of the list have a request under way. -/
def Sessions.within (L : List (BitVec 16)) (o : Sessions) : Prop := ∀ c, c ∉ L → o c = Option.none

theorem within_next {L : List (BitVec 16)} {o : Sessions} {l : DispLine Req} (h : o.within L)
    (hl : l.connid ∈ L) : (o.next l).within L := by
  intro c hc
  have hne : c ≠ l.connid := fun e => hc (e ▸ hl)
  rw [Sessions.next, Function.update_of_ne hne]
  exact h c hc

theorem atMost_of_within {L : List (BitVec 16)} {o : Sessions} (h : o.within L)
    (hL : L.length ≤ n) : o.atMost n := by
  intro f hf
  by_contra hno
  have hmem : ∀ k, f k ∈ L := fun k => by
    by_contra hk
    exact hno ⟨k, h _ hk⟩
  have hsub : Finset.univ.image f ⊆ L.toFinset := by
    intro c hc
    obtain ⟨k, -, rfl⟩ := Finset.mem_image.mp hc
    exact List.mem_toFinset.mpr (hmem k)
  have hcard := Finset.card_le_card hsub
  rw [Finset.card_image_of_injective _ hf, Finset.card_univ, Fintype.card_fin] at hcard
  have := List.toFinset_card_le L
  omega

/-- A run on the sessions of a list of at most `n` is well-formed traffic once its lines continue
    one another, and meets whatever else holds at its edges. -/
theorem meets_traffic [FifoKind] {L : List (BitVec 16)} (hL : L.length ≤ n)
    {ok : FrontSys n → FrontIn Req → Prop} (is : List (FrontIn Req)) (y : FrontSys n)
    (hy : y.env.within L) (hin : ∀ i ∈ is, ∀ l ∈ i.rx, l.connid ∈ L)
    (hm : Meets FrontSys.clock (fun y i => (∀ l ∈ i.rx, Continues y.env l) ∧ ok y i) y is) :
    Meets FrontSys.clock (fun y i => FrontTraffic y i ∧ ok y i) y is := by
  induction is generalizing y with
  | nil => trivial
  | cons i is ih =>
      obtain ⟨⟨hc, hk⟩, hrest⟩ := hm
      have hhere := hin i List.mem_cons_self
      refine ⟨⟨fun l hl => ⟨hc l hl, ?_⟩, hk⟩, ih _ ?_ (fun j hj => hin j (List.mem_cons_of_mem i hj))
        hrest⟩
      · exact atMost_of_within (within_next hy (hhere l hl)) hL
      · unfold FrontSys.clock
        split
        · exact fun _ _ => rfl
        · show (i.rx.elim y.env y.env.next).within L
          cases hrx : i.rx with
          | none => exact hy
          | some l => exact within_next hy (hhere l hrx)

instance (o : Sessions) (l : DispLine Req) : Decidable (Continues o l) :=
  decidable_of_iff (l.connid = l.tag.session ∧ l.tag.workload ≠ reconfApp ∧
      (o l.connid = Option.none → l.requestFirst = true ∧ l.headerWorkload = l.tag.workload ∧
        l.headerPacketSize = l.tag.size) ∧ (∀ p ∈ o l.connid, p.req = l.tag) ∧
      (l.tlast = true → 0 < l.length.toNat ∧ o.after l ≤ l.tag.size.toNat))
    ⟨fun ⟨h1, h2, h3, h4, h5⟩ => ⟨h1, h2, h3, h4, h5⟩, fun h => ⟨h.1, h.2, h.3, h.4, h.5⟩⟩

instance [FifoKind] (d : Disp Req) (o : Sessions) (l : DispLine Req) : Decidable (Recognised d o l) :=
  decidable_of_iff ((o l.connid = Option.none → d.expectingHeader = true ∨
      d.workloadSelection = l.tag.workload ∧ d.packetSize = l.tag.size) ∧
      ((o l.connid).isSome = true → ¬ (d.configHeader l = true ∧ l.headerWorkload = reconfApp)))
    ⟨fun ⟨h1, h2⟩ => ⟨h1, h2⟩, fun h => ⟨h.1, h.2⟩⟩

instance [FifoKind] (y : FrontSys n) (i : FrontIn Req) : Decidable (KeepsLabels y i) :=
  decidable_of_iff ((∀ l ∈ i.rx, Recognised y.front.disp y.env l) ∧
      (∀ l ∈ i.rx, l.connid ≠ BitVec.allOnes 16) ∧ ∀ b ∈ y.front.taken, Roomy y.front.sched b)
    ⟨fun ⟨h1, h2, h3⟩ => ⟨h1, h2, h3⟩, fun h => ⟨h.1, h.2, h.3⟩⟩

/-- The header line of a request, with the LAST flag or without. -/
def headerPayload (r : Req) (last : Bool) : BitVec 512 :=
  (r.workload.setWidth 512 <<< 496) ||| (if last then BitVec.twoPow 512 481 else 0) |||
    BitVec.twoPow 512 480 ||| (r.size.setWidth 512 <<< 448)

/-- The edge that offers one line of `r`, a packet of its own. -/
def lineOf (r : Req) (payload : BitVec 512) : FrontIn Req :=
  ⟨false, some ⟨64, r.session, true, payload, r⟩, true, true⟩

def quietEdge : FrontIn Req := ⟨false, Option.none, true, true⟩

/-- Two requests of two packets each, on two sessions. -/
def reqA : Req := ⟨5, 128, 1⟩
def reqB : Req := ⟨6, 128, 2⟩

/-- Both requests, packet by packet in turn; the headers set LAST, so that the dispatcher expects
    a header after each. -/
def interleavedRun : List (FrontIn Req) :=
  [lineOf reqA (headerPayload reqA true), lineOf reqB (headerPayload reqB true), lineOf reqA 0,
    lineOf reqB 0] ++ List.replicate 24 quietEdge

section Source

attribute [local instance] axisDataFifos

theorem requests_keep_identity_interleaved :
    ∃ x, (run FrontSys.clock (FrontSys.init 2) interleavedRun).front.sched.tx true = some x ∧
      x.connid = 2 ∧ Good x := by
  have hr : Reachable FrontSys.clock (fun y i => FrontTraffic y i ∧ KeepsLabels y i)
      (FrontSys.init 2) (run FrontSys.clock (FrontSys.init 2) interleavedRun) :=
    Reachable.of_run _ (meets_traffic (L := [1, 2]) (by decide) _ _ (fun _ _ => rfl)
      (by decide +kernel) (by decide +kernel))
  obtain ⟨x, hx, hc⟩ : ∃ x, (run FrontSys.clock (FrontSys.init 2) interleavedRun).front.sched.tx
      true = some x ∧ x.connid = 2 := by
    refine ⟨_, (Option.some_get ?_).symm, ?_⟩
    · decide +kernel
    · decide +kernel
  exact ⟨x, hx, hc, requests_keep_identity hr hx⟩

/-- The same requests without LAST: the second header comes while the dispatcher counts down the
    first request. -/
def hiddenRun : List (FrontIn Req) :=
  [lineOf reqA (headerPayload reqA false), lineOf reqB (headerPayload reqB false), lineOf reqB 0] ++
    List.replicate 21 quietEdge

/-- **A header that comes while another request is open is not recognised**: its request leaves the
    scheduler under the other's workload. -/
theorem header_hidden_by_open_request :
    ¬ ∀ y : FrontSys 2, Reachable FrontSys.clock FrontTraffic (FrontSys.init 2) y →
      ∀ txTready x, y.front.sched.tx txTready = some x → Good x := by
  intro hall
  have hm : Meets FrontSys.clock (fun y i => FrontTraffic y i ∧ True) (FrontSys.init 2) hiddenRun :=
    meets_traffic (L := [1, 2]) (by decide) _ _ (fun _ _ => rfl) (by decide +kernel)
      (by decide +kernel)
  have hr : Reachable FrontSys.clock FrontTraffic (FrontSys.init 2)
      (run FrontSys.clock (FrontSys.init 2) hiddenRun) :=
    (Reachable.of_run hiddenRun hm).mono fun _ _ h => h.1
  obtain ⟨x, hx, hne⟩ : ∃ x, (run FrontSys.clock (FrontSys.init 2) hiddenRun).front.sched.tx true =
      some x ∧ x.workload ≠ x.tag.workload := by
    refine ⟨_, (Option.some_get ?_).symm, ?_⟩
    · decide +kernel
    · decide +kernel
  exact hne (hall _ hr true x hx).workload

end Source

end Frac.Reassembly
