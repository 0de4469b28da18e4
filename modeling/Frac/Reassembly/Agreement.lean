/-
  File:      Frac/Reassembly/Agreement.lean
  Subject:   Where a request ends, for the dispatcher and for the scheduler. The dispatcher takes the
             bytes of each packet off what remains and believes the `LAST` flag of a header that fills
             its packet; the scheduler adds them up in 32 bits and knows no flag.

  * `SessionStream` -- the packets of one session, as the lines make them: a request ends with the
    packet that brings its bytes to the declared size;
  * `track_next` -- the dispatcher follows the stream; `schedFollows_take` -- so does the scheduler,
    on the lines whose bytes it can count;
  * `AgreeInv` -- the beats between the two lead from the one's place in the stream to the other's;
  * `completion_agrees` -- **both see the same ends of requests, packet by packet**, in every run of
    such lines; `last_flag_disagrees` -- otherwise one waits for a header and the other for data.
-/
import Frac.Reassembly.Identity
import Frac.Reassembly.Exclusive

namespace Frac.Reassembly

open Clocked

variable {n : Nat} {τ : Type} {c : BitVec 16}

/-! ## 1. The packets of one session -/

/-- A request under way: its declared size, and the bytes of those of its packets that have ended. -/
structure Partial where
  size : BitVec 32
  bytes : Nat

/-- The place in the stream: the request under way, and the beats of the packet under way. -/
structure SessionStream where
  request : Option Partial
  beats : Nat

namespace SessionStream

def start : SessionStream := ⟨none, 0⟩

/-- The size of the request the line belongs to: as declared, by the line itself if it opens one. -/
def size (t : SessionStream) (l : DispLine τ) : BitVec 32 := t.request.elim l.headerPacketSize (·.size)

def bytes (t : SessionStream) : Nat := t.request.elim 0 (·.bytes)

/-- The bytes of the ended packets when the line has passed. -/
def after (t : SessionStream) (l : DispLine τ) : Nat :=
  t.bytes + if l.tlast then l.length.toNat else 0

/-- The line ends its request. -/
def ends (t : SessionStream) (l : DispLine τ) : Bool :=
  l.tlast && decide ((t.size l).toNat ≤ t.after l)

def next (t : SessionStream) (l : DispLine τ) : SessionStream where
  request := if t.ends l then none else some ⟨t.size l, t.after l⟩
  beats := if l.tlast then 0 else t.beats + 1

/-- **The line continues the stream**: it is of session `c`, the length of a packet is 64 for each of
    its beats, and a request begins with a `FIRST` header, not the reconfiguration controller's. -/
structure Continues (c : BitVec 16) (t : SessionStream) (l : DispLine τ) : Prop where
  session : l.connid = c
  packet : l.tlast = true → l.length.toNat = 64 * (t.beats + 1)
  first : t.request = none → l.requestFirst = true ∧ l.headerWorkload ≠ reconfApp

/-- **The line leaves no doubt**: where a header fills its packet and has `LAST` set, it declares no
    more than the packet; and the bytes of the request stay below `2 ^ 32`. -/
structure Countable (t : SessionStream) (l : DispLine τ) : Prop where
  flag : t.request = none → l.tlast = true → l.requestLast = true → l.headerPacketSize ≤ 64
  bytes : t.after l < 2 ^ 32

instance (c : BitVec 16) (t : SessionStream) (l : DispLine τ) : Decidable (t.Continues c l) :=
  decidable_of_iff (l.connid = c ∧ (l.tlast = true → l.length.toNat = 64 * (t.beats + 1)) ∧
      (t.request.isNone = true → l.requestFirst = true ∧ l.headerWorkload ≠ reconfApp))
    ⟨fun ⟨h1, h2, h3⟩ => ⟨h1, h2, fun h => h3 (Option.isNone_iff_eq_none.mpr h)⟩,
      fun h => ⟨h.session, h.packet, fun hr => h.first (Option.isNone_iff_eq_none.mp hr)⟩⟩

instance (t : SessionStream) (l : DispLine τ) : Decidable (t.Countable l) :=
  decidable_of_iff ((t.request.isNone = true → l.tlast = true → l.requestLast = true →
      l.headerPacketSize ≤ 64) ∧ t.after l < 2 ^ 32)
    ⟨fun ⟨h1, h2⟩ => ⟨fun h => h1 (Option.isNone_iff_eq_none.mpr h), h2⟩,
      fun h => ⟨fun hr => h.flag (Option.isNone_iff_eq_none.mp hr), h.bytes⟩⟩

theorem next_request (t : SessionStream) (l : DispLine τ) :
    (t.next l).request = if t.ends l then none else some ⟨t.size l, t.after l⟩ := rfl

end SessionStream

/-! ## 2. The dispatcher -/

section Track

variable [FifoKind]

/-- **The dispatcher follows the stream**: it expects a header between two requests, and within one it
    keeps the bytes that are missing. -/
structure Disp.Follows (d : Disp τ) (t : SessionStream) : Prop where
  expecting : d.expectingHeader = t.request.isNone
  remaining : ∀ r ∈ t.request, d.requestBytesRemaining.toNat + r.bytes = r.size.toNat

variable {d : Disp τ} {t : SessionStream} {l : DispLine τ}

theorem configHeader_eq (hd : d.Follows t) (hl : t.Continues c l) :
    d.configHeader l = t.request.isNone := by
  unfold Disp.configHeader
  rw [hd.expecting]
  cases hr : t.request with
  | none => exact (hl.first hr).1
  | some r => rfl

/-- What the dispatcher has in mind at a line: the bytes missing before it. -/
theorem activeBytes_toNat (hd : d.Follows t) (hl : t.Continues c l) :
    (d.activeBytes l).toNat + t.bytes = (t.size l).toNat := by
  unfold Disp.activeBytes SessionStream.size SessionStream.bytes
  rw [configHeader_eq hd hl]
  cases hr : t.request with
  | none =>
      show l.headerRequestBytes.toNat + 0 = l.headerPacketSize.toNat
      rw [DispLine.headerRequestBytes, if_neg (hl.first hr).2, Nat.add_zero]
  | some r => exact hd.remaining r hr

/-- The dispatcher sees the end of the request where it is. -/
theorem completed_eq (hd : d.Follows t) (hl : t.Continues c l) (hk : t.Countable l)
    (ht : l.tlast = true) :
    ((d.configHeader l && l.requestLast) || decide (d.activeBytes l ≤ l.length.setWidth 32)) =
      t.ends l := by
  have hactive := activeBytes_toNat hd hl
  have hlen : (l.length.setWidth 32).toNat = l.length.toNat := by
    rw [BitVec.toNat_setWidth]
    have := l.length.isLt
    omega
  have hcount : d.activeBytes l ≤ l.length.setWidth 32 ↔ t.ends l = true := by
    rw [SessionStream.ends, SessionStream.after, ht, if_pos rfl, Bool.true_and, decide_eq_true_eq,
      BitVec.le_def, hlen]
    omega
  rw [Bool.eq_iff_iff, Bool.or_eq_true, decide_eq_true_eq, hcount]
  refine ⟨fun h => h.elim (fun hflag => ?_) id, Or.inr⟩
  -- the flag is believed only where the packet holds the whole request
  obtain ⟨hhead, hlast⟩ := Bool.and_eq_true_iff.mp hflag
  rw [configHeader_eq hd hl, Option.isNone_iff_eq_none] at hhead
  have hsmall : l.headerPacketSize.toNat ≤ 64 := hk.flag hhead ht hlast
  have hpacket := hl.packet ht
  rw [SessionStream.ends, SessionStream.after, ht, if_pos rfl, Bool.true_and, decide_eq_true_eq]
  rw [SessionStream.size, hhead]
  show l.headerPacketSize.toNat ≤ _
  omega

/-- **The dispatcher follows the stream over a line.** -/
theorem track_next (hd : d.Follows t) (hl : t.Continues c l) (hk : t.Countable l) :
    (d.track l).1 = (t.next l).request.isNone ∧
      ∀ r ∈ (t.next l).request, (d.track l).2.toNat + r.bytes = r.size.toNat := by
  have hactive := activeBytes_toNat hd hl
  unfold Disp.track
  rw [SessionStream.next_request]
  cases ht : l.tlast with
  | true =>
      rw [if_pos rfl, completed_eq hd hl hk ht]
      cases he : t.ends l with
      | true => exact ⟨rfl, fun r hr => by cases hr⟩
      | false =>
          refine ⟨rfl, fun r hr => ?_⟩
          cases hr
          have hopen : t.after l < (t.size l).toNat := by
            rw [SessionStream.ends, ht, Bool.true_and, decide_eq_false_iff_not] at he
            omega
          have hafter : t.after l = t.bytes + l.length.toNat := by
            rw [SessionStream.after, ht, if_pos rfl]
          have hlen := l.length.isLt
          show (d.activeBytes l - l.length.setWidth 32).toNat + t.after l = (t.size l).toNat
          rw [BitVec.toNat_sub, BitVec.toNat_setWidth]
          omega
  | false =>
      have hends : t.ends l = false := by rw [SessionStream.ends, ht, Bool.false_and]
      have hafter : t.after l = t.bytes := by
        rw [SessionStream.after, ht]
        rfl
      rw [configHeader_eq hd hl, hends]
      simp only [Bool.false_eq_true, if_false]
      cases hr : t.request with
      | none =>
          refine ⟨rfl, fun r h => ?_⟩
          cases h
          rw [hafter]
          exact hactive
      | some r =>
          refine ⟨by rw [hd.expecting, hr]; rfl, fun r' h => ?_⟩
          cases h
          rw [hafter]
          show d.requestBytesRemaining.toNat + t.bytes = (t.size l).toNat
          rw [SessionStream.bytes, SessionStream.size, hr]
          exact hd.remaining r hr

end Track

/-! ## 3. The scheduler -/

/-- What the books of a queue say of the request it is filled by. -/
def Books.Counts (bk : Books) (r : Partial) : Prop := bk.counter = r.size ∧ bk.counterInst.toNat = r.bytes

/-- The request under way, on the only session there is. -/
def SessionStream.sessions (c : BitVec 16) (t : SessionStream) : BitVec 16 → Option Partial :=
  Function.update (fun _ => none) c t.request

/-- **The scheduler follows the stream**: the request under way owns one queue, and every other queue is
    free. -/
structure InRegs.Follows (c : BitVec 16) (r : InRegs n τ) (t : SessionStream) : Prop where
  ready : r.rxTready = true
  single : r.metaSingle = QMeta.free
  owns : Owns (t.sessions c) Books.Counts r.books

/-- A beat as the scheduler meets it: a header carries the size that it declares. -/
structure BeatContinues (c : BitVec 16) (t : SessionStream) (b : RxBeat τ) : Prop where
  line : t.Continues c b.toLine
  countable : t.Countable b.toLine
  label : t.request = none → b.packetSize = b.toLine.headerPacketSize
  app : b.workload ≠ reconfApp

section Take

variable {t : SessionStream} {b : RxBeat τ}

theorem sessions_self (c : BitVec 16) (t : SessionStream) : t.sessions c c = t.request :=
  Function.update_self ..

theorem sessions_update (c : BitVec 16) (t t' : SessionStream) :
    Function.update (t.sessions c) c t'.request = t'.sessions c :=
  Function.update_idem ..

/-- The queue sees the end of the request where it is. -/
theorem counted_ends (hk : t.Countable b.toLine) {size acc : BitVec 32} (hsize : size = t.size b.toLine)
    (hacc : acc.toNat = t.bytes) :
    (countedBytes b acc).toNat = t.after b.toLine ∧
      (b.tlast && decide (acc + b.length.setWidth 32 ≥ size)) = t.ends b.toLine := by
  have hafter : t.after b.toLine = acc.toNat + if b.tlast then b.length.toNat else 0 := by
    rw [hacc]
    rfl
  have hcount : (countedBytes b acc).toNat = t.after b.toLine := by
    rw [hafter]
    exact countedBytes_toNat (hafter ▸ hk.bytes)
  refine ⟨hcount, ?_⟩
  unfold countedBytes at hcount
  unfold SessionStream.ends
  show _ = (b.tlast && _)
  cases ht : b.tlast with
  | false => rfl
  | true =>
      rw [ht, if_pos rfl] at hcount
      show (true && decide (size.toNat ≤ (acc + b.length.setWidth 32).toNat)) = _
      rw [hcount, hsize]

/-- Request and queue after a beat: both done, or both one beat further on. -/
theorem counts_next (hk : t.Countable b.toLine) {m : QMeta} {size acc : BitVec 32}
    (hsize : size = t.size b.toLine) (hacc : acc.toNat = t.bytes) (hm : m.connid = c) {bk : Books}
    (hbk : bk = if b.tlast && decide (acc + b.length.setWidth 32 ≥ size) then Books.closed
      else ⟨m, size, countedBytes b acc⟩) :
    ((t.next b.toLine).request = none → bk.qmeta = QMeta.free) ∧
      ∀ r, (t.next b.toLine).request = some r → bk.qmeta.connid = c ∧ bk.Counts r := by
  obtain ⟨hcount, hends⟩ := counted_ends hk hsize hacc
  rw [hends] at hbk
  rw [SessionStream.next_request]
  cases he : t.ends b.toLine with
  | true =>
      rw [he, if_pos rfl] at hbk
      exact ⟨fun _ => by rw [hbk]; rfl, fun r hr => by cases hr⟩
  | false =>
      rw [he, if_neg Bool.false_ne_true] at hbk
      refine ⟨fun h => (by cases h), fun r hr => ?_⟩
      cases hr
      rw [hbk]
      exact ⟨hm, hsize, hcount⟩

variable [FifoKind] {s : Sched n τ}

/-- Between two requests every queue is free. -/
theorem queue_free (hI : s.inp.Follows c t) (ht : t.request = none) (k : Fin n) :
    (s.inp.queue k).qmeta = QMeta.free := by
  rcases hI.owns.queue k with h | ⟨r, h, -⟩
  · exact h
  · have hnone : t.sessions c = fun _ => none := by
      rw [SessionStream.sessions, ht]
      exact Function.update_eq_self c fun _ => none
    rw [hnone] at h
    cases h

variable (hI : s.inp.Follows c t) (hb : BeatContinues c t b) (hc : c ≠ BitVec.allOnes 16)
include hI hb hc

/-- A beat of the request under way goes to its queue. -/
theorem schedFollows_continue (hroom : ∀ k, (s.fifo k).tready = true) {r : Partial}
    (hr : t.request = some r) : (s.take b).Follows c (t.next b.toLine) := by
  have hsession : b.connid = c := hb.line.session
  have ho : t.sessions c b.connid = some r := by rw [hsession, sessions_self, hr]
  obtain ⟨k, hroute, hk, hsize, hbytes⟩ := route_owned hI.owns hI.single (hsession ▸ hc)
    (fun k _ => hroom k) ho
  have hport : (s.route b).port = some (.queue k) := by rw [hroute]; rfl
  have hsize' : (s.inp.queue k).counter = t.size b.toLine := by
    rw [SessionStream.size, hr]
    exact hsize
  have hbytes' : (s.inp.queue k).counterInst.toNat = t.bytes := by
    rw [SessionStream.bytes, hr]
    exact hbytes
  obtain ⟨hnone, hsome⟩ := counts_next hb.countable hsize' hbytes' (hk.trans hsession) rfl
  refine ⟨take_rxTready hport, take_metaSingle hI.single b, ?_⟩
  rw [books_take_match hroute, ← sessions_update c t]
  exact owns_update hI.owns hc (Or.inr (hk.trans hsession))
    (fun j hj => owns_unique hI.owns hc hj (hk.trans hsession)) hnone hsome

/-- The first beat of a request is complete in itself or opens a queue. -/
theorem schedFollows_open (hn : 0 < n) (hr : t.request = none) :
    (s.take b).Follows c (t.next b.toLine) := by
  have hsession : b.connid = c := hb.line.session
  have ho : t.sessions c b.connid = none := by rw [hsession, sessions_self, hr]
  have hhead : b.isHeader = true := (hb.line.first hr).1
  have hsize : b.packetSize = t.size b.toLine := by
    rw [SessionStream.size, hr]
    exact hb.label hr
  have hzero : (0 : BitVec 32).toNat = t.bytes := by
    rw [SessionStream.bytes, hr]
    rfl
  rcases route_unowned hI.owns hI.single (hsession ▸ hc) ho with
    ⟨hroute, hfit⟩ | ⟨-, ⟨k, hroute, hfree⟩ | ⟨-, hno⟩⟩
  · -- complete in one beat: no queue is touched, and none was owned
    obtain ⟨hfits, ht⟩ := fitsSingle_size hfit
    have hport : (s.route b).port = some .single := by rw [hroute]; rfl
    have hends : t.ends b.toLine = true := by
      rw [← (counted_ends hb.countable hsize hzero).2, ht, hfits]
      simp
    refine ⟨take_rxTready hport, take_metaSingle hI.single b, ?_⟩
    rw [books_take_single hroute, ← sessions_update c t, SessionStream.next_request, if_pos hends, ← hr,
      ← sessions_self c t, Function.update_eq_self]
    exact hI.owns
  · have hport : (s.route b).port = some (.queue k) := by rw [hroute]; rfl
    obtain ⟨hnone, hsome⟩ := counts_next (m := ⟨b.dstPort, b.workload, b.connid⟩) hb.countable hsize
      hzero hsession rfl
    refine ⟨take_rxTready hport, take_metaSingle hI.single b, ?_⟩
    rw [books_take_alloc hroute, ← sessions_update c t]
    refine owns_update hI.owns hc (Or.inl hfree) (fun j hj => ?_) hnone hsome
    exact absurd hj (owns_unmatched hI.owns hc (hsession ▸ ho) j)
  · have hcan := hno ⟨0, hn⟩
    rw [Sched.canAlloc, hhead, queue_free hI hr] at hcan
    cases hcan

/-- **The scheduler follows the stream over a beat.** -/
theorem schedFollows_take (hn : 0 < n) (hroom : ∀ k, (s.fifo k).tready = true) :
    (s.take b).Follows c (t.next b.toLine) := by
  cases hr : t.request with
  | none => exact schedFollows_open hI hb hc hn hr
  | some r => exact schedFollows_continue hI hb hc hroom hr

end Take

/-! ## 4. Dispatcher and scheduler in a run -/

section Run

variable [FifoKind]

/-- No queue is allocated to the session. -/
def Sched.unallocated (s : Sched n τ) (c : BitVec 16) : Bool := decide (∀ k, s.owner k ≠ c)

/-- Dispatcher and scheduler, the place in the stream of each, and for each packet whose last beat has
    passed it, `expecting_header` of the one and whether a queue is allocated in the other. -/
structure AgreeSys (n : Nat) where
  front : Front n Unit
  offered : SessionStream
  taken : SessionStream
  headers : List Bool
  releases : List Bool

def AgreeSys.init (n : Nat) : AgreeSys n := ⟨Front.reset n Unit, .start, .start, [], []⟩

def AgreeSys.clock (c : BitVec 16) (y : AgreeSys n) (i : FrontIn Unit) : AgreeSys n :=
  if i.rst then AgreeSys.init n
  else
    { front := y.front.edge i
      offered := i.rx.elim y.offered y.offered.next
      taken := y.front.taken.elim y.taken fun b => y.taken.next b.toLine
      headers := y.headers ++
        (i.rx.filter (·.tlast)).toList.map fun _ => (y.front.edge i).disp.expectingHeader
      releases := y.releases ++
        (y.front.taken.filter (·.tlast)).toList.map fun _ => (y.front.edge i).sched.unallocated c }

/-- No FIFO is full. -/
structure Front.Roomy (f : Front n τ) : Prop where
  disp : f.disp.fifo.tready = true
  queue : ∀ k, (f.sched.fifo k).tready = true
  single : f.sched.fifoSingle.tready = true
  out : f.sched.fifoOut.tready = true

instance (f : Front n τ) : Decidable f.Roomy :=
  decidable_of_iff (f.disp.fifo.tready = true ∧ (∀ k, (f.sched.fifo k).tready = true) ∧
      f.sched.fifoSingle.tready = true ∧ f.sched.fifoOut.tready = true)
    ⟨fun ⟨h1, h2, h3, h4⟩ => ⟨h1, h2, h3, h4⟩, fun h => ⟨h.disp, h.queue, h.single, h.out⟩⟩

/-- The traffic of the edge: the line continues the stream, and no FIFO is full. -/
structure AgreeTraffic (c : BitVec 16) (y : AgreeSys n) (i : FrontIn Unit) : Prop where
  line : ∀ l ∈ i.rx, y.offered.Continues c l
  roomy : y.front.Roomy

instance (c : BitVec 16) (y : AgreeSys n) (i : FrontIn Unit) : Decidable (AgreeTraffic c y i) :=
  decidable_of_iff ((∀ l ∈ i.rx, y.offered.Continues c l) ∧ y.front.Roomy)
    ⟨fun ⟨h1, h2⟩ => ⟨h1, h2⟩, fun h => ⟨h.line, h.roomy⟩⟩

/-- The line of the edge leaves no doubt. -/
def AgreeSys.Countable (y : AgreeSys n) (i : FrontIn Unit) : Prop := ∀ l ∈ i.rx, y.offered.Countable l

instance (y : AgreeSys n) (i : FrontIn Unit) : Decidable (y.Countable i) :=
  inferInstanceAs (Decidable (∀ l ∈ i.rx, _))

/-- The place in the stream after a beat, and the end of a packet that it is. -/
def SessionStream.step (t : SessionStream) (b : RxBeat τ) : SessionStream := t.next b.toLine

def SessionStream.shows (t : SessionStream) (b : RxBeat τ) : List Bool :=
  if b.tlast then [(t.step b).request.isNone] else []

omit [FifoKind] in
/-- What one beat, or none, shows. -/
theorem log_shows (t : SessionStream) (o : Option (RxBeat τ)) :
    log SessionStream.step SessionStream.shows t o.toList =
      (o.filter (·.tlast)).toList.map fun _ => (run SessionStream.step t o.toList).request.isNone := by
  cases o with
  | none => rfl
  | some b => cases hb : b.tlast <;> simp [log, SessionStream.shows, Option.filter, hb]

/-- **Dispatcher and scheduler follow one stream**, and the beats between them lead from the one's place
    in it to the other's. -/
structure AgreeInv (c : BitVec 16) (y : AgreeSys n) : Prop where
  stream : Meets SessionStream.step (BeatContinues c) y.taken y.front.disp.inflight
  ahead : run SessionStream.step y.taken y.front.disp.inflight = y.offered
  disp : y.front.disp.Follows y.offered
  label : y.front.disp.workloadSelection ≠ reconfApp
  sched : y.front.sched.inp.Follows c y.taken
  logs : y.headers = y.releases ++ log SessionStream.step SessionStream.shows y.taken y.front.disp.inflight

theorem agreeInv_init : AgreeInv c (AgreeSys.init n) where
  stream := trivial
  ahead := rfl
  disp := ⟨rfl, fun r hr => by cases hr⟩
  label := (by decide : (0 : BitVec 16) ≠ reconfApp)
  sched := by
    refine ⟨rfl, rfl, ?_⟩
    rw [show SessionStream.sessions c (AgreeSys.init n).taken = fun _ => none from
      Function.update_eq_self c fun _ => none]
    exact owns_closed
  logs := rfl

/-- What the scheduler shows is what the stream does. -/
theorem unallocated_eq {s : Sched n τ} {t : SessionStream} (hI : s.inp.Follows c t)
    (hc : c ≠ BitVec.allOnes 16) : s.unallocated c = t.request.isNone := by
  unfold Sched.unallocated
  cases hr : t.request with
  | none =>
      refine decide_eq_true fun k hk => ?_
      rw [Sched.owner, queue_free hI hr] at hk
      exact hc hk.symm
  | some r =>
      obtain ⟨k, hk⟩ := hI.owns.owner c r (by rw [sessions_self, hr])
      exact decide_eq_false fun h => h k hk

section Edge

variable {y : AgreeSys n} {i : FrontIn Unit} (hI : AgreeInv c y) (hc : c ≠ BitVec.allOnes 16)
include hI

/-- The beats in the dispatcher's FIFO are for the scheduler. -/
theorem agree_app : ∀ b ∈ y.front.disp.fifo.items, b.workload ≠ reconfApp := by
  have hs := ((meets_append ..).mp hI.stream).1
  have happ : Meets SessionStream.step (fun _ b => b.workload ≠ reconfApp) y.taken
      y.front.disp.fifo.items := hs.mono fun _ _ h => h.app
  exact happ.mem

/-- The beat a line becomes. -/
theorem beatContinues_combine {l : DispLine Unit} (hl : y.offered.Continues c l)
    (hk : y.offered.Countable l) :
    BeatContinues c y.offered (y.front.disp.combine l) ∧ (y.front.disp.label l).2 ≠ reconfApp := by
  have hhead := configHeader_eq hI.disp hl
  have happ : (y.front.disp.label l).2 ≠ reconfApp := by
    unfold Disp.label
    rw [hhead]
    cases hr : y.offered.request with
    | none => exact (hl.first hr).2
    | some r => exact hI.label
  refine ⟨⟨hl, hk, fun hr => ?_, happ⟩, happ⟩
  show (y.front.disp.label l).1 = l.headerPacketSize
  rw [Disp.label, hhead, hr]
  rfl

include hc

/-- The scheduler's part of an edge. -/
theorem sched_follows (hn : 0 < n) (hroom : y.front.Roomy) :
    (y.front.edge i).sched.inp.Follows c (y.front.taken.elim y.taken fun b => y.taken.next b.toLine) := by
  have hstream := hI.stream
  rw [front_split hI.sched.ready (agree_app hI) hroom.disp, meets_append] at hstream
  show (y.front.sched.inEdge y.front.schedRx).Follows c _
  unfold Sched.inEdge
  rw [show y.front.sched.accepted y.front.schedRx = y.front.taken from rfl]
  cases ht : y.front.taken with
  | none => exact ⟨rfl, hI.sched.single, hI.sched.owns⟩
  | some b =>
      rw [ht] at hstream
      exact schedFollows_take hI.sched hstream.1.1 hc hn hroom.queue

omit hc in
/-- The dispatcher's part of an edge: its registers, and what it shows of the packet that ends. -/
theorem disp_follows (hline : ∀ l ∈ i.rx, y.offered.Continues c l) (hk : y.Countable i) :
    (y.front.edge i).disp.Follows (i.rx.elim y.offered y.offered.next) ∧
      (y.front.edge i).disp.workloadSelection ≠ reconfApp := by
  show (y.front.disp.edge i.rx _).Follows _ ∧ (y.front.disp.edge i.rx _).workloadSelection ≠ _
  cases hrx : i.rx with
  | none => exact ⟨⟨hI.disp.expecting, hI.disp.remaining⟩, hI.label⟩
  | some l =>
      have hl := hline l hrx
      obtain ⟨h1, h2⟩ := track_next hI.disp hl (hk l hrx)
      exact ⟨⟨h1, h2⟩, (beatContinues_combine hI hl (hk l hrx)).2⟩

theorem agreeInv_edge (hn : 0 < n) (hrst : i.rst = false) (ht : AgreeTraffic c y i)
    (hk : y.Countable i) : AgreeInv c (y.clock c i) := by
  rw [AgreeSys.clock, if_neg (by rw [hrst]; decide)]
  have happ := agree_app hI
  have hsched : (y.front.edge i).sched.inp.Follows c _ := sched_follows hI hc hn ht.roomy
  obtain ⟨hdisp, hlabel⟩ := disp_follows hI ht.line hk
  -- what the scheduler takes, what stays under way, and what the line adds to it
  have hsplit := front_split hI.sched.ready happ ht.roomy.disp
  have hinfl := front_inflight hI.sched.ready happ i
  obtain ⟨-, hrest⟩ := (meets_append ..).mp (hsplit ▸ hI.stream)
  have hahead := hI.ahead
  have hlogs := hI.logs
  rw [hsplit, run_append] at hahead
  rw [hsplit, log_append, ← List.append_assoc] at hlogs
  have htaken : run SessionStream.step y.taken y.front.taken.toList =
      y.front.taken.elim y.taken fun b => y.taken.next b.toLine := by
    cases y.front.taken <;> rfl
  rw [htaken] at hrest hahead hlogs
  have hnew : Meets SessionStream.step (BeatContinues c) y.offered
      (i.rx.map y.front.disp.combine).toList := by
    cases hrx : i.rx with
    | none => trivial
    | some l => exact ⟨(beatContinues_combine hI (ht.line l hrx) (hk l hrx)).1, trivial⟩
  have hoffered : run SessionStream.step y.offered (i.rx.map y.front.disp.combine).toList =
      i.rx.elim y.offered y.offered.next := by
    cases i.rx <;> rfl
  have hreleases : (y.front.taken.filter (·.tlast)).toList.map
      (fun _ => (y.front.edge i).sched.unallocated c) =
        log SessionStream.step SessionStream.shows y.taken y.front.taken.toList := by
    rw [log_shows, htaken, unallocated_eq hsched hc]
  have hheaders : (i.rx.filter (·.tlast)).toList.map (fun _ => (y.front.edge i).disp.expectingHeader) =
      log SessionStream.step SessionStream.shows y.offered (i.rx.map y.front.disp.combine).toList := by
    rw [log_shows, hoffered, hdisp.expecting]
    cases i.rx with
    | none => rfl
    | some l => cases hl : l.tlast <;> simp [Option.filter, Disp.combine, hl]
  refine ⟨?_, ?_, hdisp, hlabel, hsched, ?_⟩
  · show Meets _ _ _ (y.front.edge i).disp.inflight
    rw [hinfl, meets_append, hahead]
    exact ⟨hrest, hnew⟩
  · show run _ _ (y.front.edge i).disp.inflight = _
    rw [hinfl, run_append, hahead, hoffered]
  · show y.headers ++ _ = y.releases ++ _ ++ log _ _ _ (y.front.edge i).disp.inflight
    rw [hinfl, log_append, hahead, hheaders, hreleases, hlogs, List.append_assoc]

end Edge

/-- **Dispatcher and scheduler agree on where requests end**, in every run of a session's packets that
    leave no doubt: packet by packet, the scheduler has released its queue exactly where the dispatcher
    expects a header next; and whenever nothing is under way between the two, a header is expected exactly
    if no queue is allocated. -/
theorem completion_agrees (hn : 0 < n) (hc : c ≠ BitVec.allOnes 16) {y : AgreeSys n}
    (hr : Reachable (AgreeSys.clock c) (fun y i => AgreeTraffic c y i ∧ y.Countable i)
      (AgreeSys.init n) y) :
    y.releases <+: y.headers ∧
      (y.front.disp.inflight = [] →
        y.releases = y.headers ∧
          (y.front.disp.expectingHeader = true ↔ ∀ k, y.front.sched.owner k ≠ c)) := by
  have hI : AgreeInv c y := by
    refine hr.invariant agreeInv_init fun y i hI ⟨ht, hk⟩ => ?_
    cases hrst : i.rst with
    | true =>
        rw [AgreeSys.clock, if_pos hrst]
        exact agreeInv_init
    | false => exact agreeInv_edge hI hc hn hrst ht hk
  have hlogs := hI.logs
  have hahead := hI.ahead
  refine ⟨⟨_, hlogs.symm⟩, fun hempty => ?_⟩
  rw [hempty] at hlogs hahead
  rw [show log SessionStream.step SessionStream.shows y.taken [] = [] from rfl, List.append_nil] at hlogs
  refine ⟨hlogs.symm, ?_⟩
  rw [hI.disp.expecting, ← hahead, run_nil, ← unallocated_eq hI.sched hc, Sched.unallocated,
    decide_eq_true_eq]

end Run

/-- A packet of one beat on session 5. -/
def oneBeat (payload : BitVec 512) : FrontIn Unit := ⟨false, some ⟨64, 5, true, payload, ()⟩, true, true⟩

def restEdge : FrontIn Unit := ⟨false, none, true, true⟩

/-- A request of 128 bytes in two packets. -/
def sentInTwo : List (FrontIn Unit) :=
  [oneBeat (headerPayload ⟨3, 128, 5⟩ false), oneBeat 0] ++ List.replicate 4 restEdge

section Source

attribute [local instance] axisDataFifos

/-- At rest after the two packets. -/
theorem completion_agrees_inTwo :
    (run (AgreeSys.clock 5) (AgreeSys.init 4) sentInTwo).releases = [false, true] ∧
      (run (AgreeSys.clock 5) (AgreeSys.init 4) sentInTwo).headers = [false, true] := by
  have h := (completion_agrees (c := 5) (by decide) (by decide)
    (Reachable.of_run sentInTwo (by decide +kernel : Meets (AgreeSys.clock 5)
      (fun y i => AgreeTraffic 5 y i ∧ y.Countable i) (AgreeSys.init 4) sentInTwo))).2
    (List.isEmpty_iff.mp (by decide +kernel))
  have hheaders : (run (AgreeSys.clock 5) (AgreeSys.init 4) sentInTwo).headers = [false, true] := by
    decide +kernel
  exact ⟨h.1.trans hheaders, hheaders⟩

/-- The same request with `LAST` set on the header, after its first packet. -/
def flaggedPacket : List (FrontIn Unit) :=
  oneBeat (headerPayload ⟨3, 128, 5⟩ true) :: List.replicate 4 restEdge

/-- **With `LAST` on a header that declares more than its packet the two part**: the dispatcher waits for
    the next header, the scheduler for 64 bytes more. -/
theorem last_flag_disagrees :
    ¬ ∀ y : AgreeSys 4, Reachable (AgreeSys.clock 5) (AgreeTraffic 5) (AgreeSys.init 4) y →
      y.front.disp.inflight = [] →
        (y.front.disp.expectingHeader = true ↔ ∀ k, y.front.sched.owner k ≠ 5) := by
  intro hall
  have h := hall _ (Reachable.of_run flaggedPacket (by decide +kernel))
    (List.isEmpty_iff.mp (by decide +kernel))
  exact absurd (h.mp (by decide +kernel) 0) (by decide +kernel)

end Source

end Frac.Reassembly
