/-
  File:      Frac/Reassembly/Whole.lean
  Subject:   What the slots see: the sequence of beats the output mux forwards, over any
             interleaving of connections, and in which runs it is one whole request after another.

  * `Framing` -- the requests of a sequence of accepted beats, connection by connection;
  * `Whole` -- the beats forwarded so far are whole completed requests and the beginning of one;
  * `arrival` -- what an accepted beat does to its request, its queue and its FIFO;
  * `ledger_read`, `ledger_intake` -- the two halves of an edge on the ledger of completed requests;
  * `requests_stay_whole` -- in every run whose reads have credit and are not preempted, requests
    are forwarded whole; `single_preempts_request` -- a one-beat request cuts another in two.
-/
import Frac.Lib.Ledger
import Frac.Reassembly.Arbiter
import Frac.Reassembly.Conservation
import Frac.Reassembly.Ownership

namespace Frac.Reassembly

open Clocked

variable {n : Nat} {τ : Type}

/-! ## 1. Requests -/

/-- A line and whether it ends its request. -/
abbrev Mark (τ : Type) := Line τ × Bool

def QBeat.mark (x : QBeat τ) : Mark τ := (x.line, x.requestEnd)

theorem mark_ends (x : QBeat τ) : x.mark.2 = x.requestEnd := rfl

/-- A request under way on a connection: its declared size, the bytes of its ended packets, its
    lines. -/
structure Opened (τ : Type) where
  size : BitVec 32
  bytes : BitVec 32
  lines : List (Line τ)

/-- The requests under way on each connection, and the completed ones. -/
structure Framing (τ : Type) where
  opened : BitVec 16 → Option (Opened τ)
  complete : List (List (Mark τ))

def Framing.start : Framing τ := ⟨fun _ => none, []⟩

/-- The request a beat belongs to: the one under way on its connection, or a new one. -/
def Framing.request (f : Framing τ) (b : RxBeat τ) : Opened τ :=
  (f.opened b.connid).getD ⟨b.packetSize, 0, []⟩

/-- The beat is the final one of its request. -/
def Framing.ends (f : Framing τ) (b : RxBeat τ) : Bool :=
  b.tlast && decide ((f.request b).bytes + b.length.setWidth 32 ≥ (f.request b).size)

/-- The requests after one more beat. -/
def Framing.next (f : Framing τ) (b : RxBeat τ) : Framing τ :=
  let r := f.request b
  if f.ends b then
    { opened := Function.update f.opened b.connid none
      complete := f.complete ++ [openBeats r.lines ++ [(b.line, true)]] }
  else
    { f with
      opened := Function.update f.opened b.connid
        (some ⟨r.size, countedBytes b r.bytes, r.lines ++ [b.line]⟩) }

section Run

variable [FifoKind]

/-- The scheduler, the requests of the beats it has accepted, and the beats it has forwarded to the
    pipeline, since the last reset. -/
structure WholeSys (n : Nat) (τ : Type) where
  sched : Sched n τ
  framing : Framing τ
  forwarded : List (QBeat τ)

def WholeSys.init (n : Nat) (τ : Type) [Inhabited τ] : WholeSys n τ :=
  ⟨Sched.reset n τ, Framing.start, []⟩

def WholeSys.clock [Inhabited τ] (y : WholeSys n τ) (i : SchedIn τ) : WholeSys n τ :=
  if i.rst then WholeSys.init n τ
  else
    { sched := y.sched.edge i.rx i.txTready
      framing := (y.sched.accepted i.rx).elim y.framing y.framing.next
      forwarded := y.forwarded ++ y.sched.forwarded.toList }

/-- **Requests are forwarded whole**: completed requests one after the other, the last one possibly
    not yet to its end; so no beat comes between two of a request, and none before its final beat
    was accepted. -/
def Whole (y : WholeSys n τ) : Prop :=
  ∃ (rs : List (List (Mark τ))) (pre : List (Mark τ)), y.forwarded.map (·.mark) = rs.flatten ++ pre ∧
    (∀ r ∈ rs, r ∈ y.framing.complete) ∧ (pre = [] ∨ ∃ rest, pre ++ rest ∈ y.framing.complete)

/-- **The edge keeps requests whole**: the input settles; the accepted beat is not on connection
    `0xFFFF`, and its connection's queue, if it has one, has room; and a queue that is read has
    credit for the request and is not preempted. -/
structure Releases (s : Sched n τ) (rx : Option (RxBeat τ)) : Prop where
  settles : Settles s rx
  beat : ∀ b ∈ s.accepted rx, b.connid ≠ BitVec.allOnes 16 ∧
    ∀ k, (s.inp.queue k).qmeta.connid = b.connid → (s.fifo k).tready = true
  pop : ∀ k, s.popReady (.queue k) = true → (s.fifo k).items ≠ [] →
    (s.inp.queue k).credits > s.out.deduct k ∧ s.fifoSingle.tvalid = false

instance (s : Sched n τ) (rx : Option (RxBeat τ)) : Decidable (Releases s rx) :=
  decidable_of_iff
    (Settles s rx ∧
      (∀ b ∈ s.accepted rx, b.connid ≠ BitVec.allOnes 16 ∧
        ∀ k, (s.inp.queue k).qmeta.connid = b.connid → (s.fifo k).tready = true) ∧
      ∀ k, s.popReady (.queue k) = true → ¬ (s.fifo k).items.isEmpty = true →
        (s.inp.queue k).credits > s.out.deduct k ∧ s.fifoSingle.tvalid = false)
    ⟨fun ⟨h1, h2, h3⟩ => ⟨h1, h2, fun k hk hne => h3 k hk fun e => hne (List.isEmpty_iff.mp e)⟩,
      fun h => ⟨h.settles, h.beat, fun k hk hne => h.pop k hk fun e => hne (List.isEmpty_iff.mpr e)⟩⟩

/-! ## 2. One accepted beat -/

/-- The queue's books are those of the request under way. -/
def Books.Tracks (bk : Books) (a : Opened τ) : Prop := bk.counter = a.size ∧ bk.counterInst = a.bytes

/-- The lines a port holds of a request still under way. -/
def openMarks (f : Framing τ) (r : InRegs n τ) : Port n → List (Mark τ)
  | .single => []
  | .queue k => ((f.opened (r.queue k).qmeta.connid).map fun a => openBeats a.lines).getD []

section Arrive

variable {f : Framing τ} {s : Sched n τ} {b : RxBeat τ}

omit [FifoKind] in
/-- The opened requests after a beat, as one session's move. -/
theorem next_opened (f : Framing τ) (b : RxBeat τ) :
    (f.next b).opened = Function.update f.opened b.connid
      (if f.ends b then none
        else some ⟨(f.request b).size, countedBytes b (f.request b).bytes,
          (f.request b).lines ++ [b.line]⟩) := by
  unfold Framing.next
  dsimp only
  split <;> rfl

/-- **What an accepted beat does**: it goes to one port, marked as its request's final beat or not;
    its request and its port's queue move on together. -/
structure Arrival (f : Framing τ) (s : Sched n τ) (b : RxBeat τ) (q : Port n) (x : QBeat τ) :
    Prop where
  port : (s.route b).port = some q
  strobe : (s.take b).strobe q = some x
  mark : x.mark = (b.line, f.ends b)
  owns : Owns (f.next b).opened Books.Tracks (s.take b).books
  here : openMarks f s.inp q = openBeats (f.request b).lines
  self : openMarks (f.next b) (s.take b) q =
    if f.ends b then [] else openMarks f s.inp q ++ [(b.line, false)]
  other : ∀ p, p ≠ q → openMarks (f.next b) (s.take b) p = openMarks f s.inp p
  credits : ∀ k, ((s.take b).queue k).credits =
    if q = .queue k ∧ f.ends b = true then (s.cleared k).credits + 1 else (s.cleared k).credits
  single : q = .single → f.ends b = true ∧ (f.request b).lines = []

variable (hO : Owns f.opened Books.Tracks s.inp.books) (hm : s.inp.metaSingle = QMeta.free)
  (hp : b.connid ≠ BitVec.allOnes 16)
include hO hp

/-- The lines at a queue whose session and books have moved on together, and at the others. -/
theorem openMarks_update {k : Fin n} {bk : Books}
    (hother : ∀ j, (s.inp.books j).qmeta.connid = b.connid → j = k)
    (hbooks : (s.take b).books = Function.update s.inp.books k bk)
    (hfree : f.ends b = true → bk.qmeta = QMeta.free)
    (hbusy : f.ends b = false → bk.qmeta.connid = b.connid) :
    openMarks (f.next b) (s.take b) (.queue k) =
        (if f.ends b then [] else openBeats (f.request b).lines ++ [(b.line, false)]) ∧
    ∀ p, p ≠ .queue k → openMarks (f.next b) (s.take b) p = openMarks f s.inp p := by
  have hrw : ∀ j, openMarks (f.next b) (s.take b) (.queue j) =
      (((f.next b).opened ((s.take b).books j).qmeta.connid).map fun a => openBeats a.lines).getD [] :=
    fun _ => rfl
  constructor
  · rw [hrw, hbooks, Function.update_self, next_opened]
    cases he : f.ends b with
    | true =>
        rw [hfree he, free_connid,
          Function.update_of_ne hp.symm, hO.proper]
        rfl
    | false =>
        rw [hbusy he, Function.update_self]
        simp [openBeats]
  · intro p hpk
    cases p with
    | single => rfl
    | queue j =>
        have hj : j ≠ k := fun e => hpk (by rw [e])
        rw [hrw, hbooks, Function.update_of_ne hj, next_opened,
          Function.update_of_ne fun e => hj (hother j e)]
        rfl

/-- A beat counted by queue `k` for its own request. -/
theorem arrival_queue {k : Fin n} {q : QueueRegs τ} {d : QBeat τ}
    (hport : (s.route b).port = some (.queue k))
    (hqueue : (s.take b).queue = Function.update s.cleared k (q.count b d (f.request b).bytes))
    (hcred : q.credits = (s.cleared k).credits) (hsize : q.counter = (f.request b).size)
    (hconn : q.qmeta.connid = b.connid) (hline : d.line = b.line)
    (hk : (s.inp.books k).qmeta = QMeta.free ∨ (s.inp.books k).qmeta.connid = b.connid)
    (hother : ∀ j, (s.inp.books j).qmeta.connid = b.connid → j = k)
    (hhere : openMarks f s.inp (.queue k) = openBeats (f.request b).lines) :
    Arrival f s b (.queue k) (q.count b d (f.request b).bytes).tdata := by
  have hends : q.completes b (f.request b).bytes = f.ends b := by
    rw [QueueRegs.completes, Framing.ends, hsize]
  have hbooks := books_update s _ k _ hqueue
  rw [books_count, hends] at hbooks
  obtain ⟨hself, hoth⟩ := openMarks_update hO hp hother hbooks
    (fun e => by rw [e]; rfl) (fun e => by rw [e]; exact hconn)
  refine ⟨hport, ?_, Prod.ext ((count_line ..).trans hline) ((count_requestEnd ..).trans hends), ?_,
    hhere, by rw [hself, hhere], hoth, fun j => ?_, fun e => by cases e⟩
  · simp [InRegs.strobe, hqueue, count_tvalid]
  · rw [next_opened, hbooks]
    refine owns_update hO hp hk hother (fun e => ?_) (fun x hx => ?_)
    · cases he : f.ends b with
      | true => rfl
      | false => rw [he] at e; cases e
    · cases he : f.ends b with
      | true => rw [he] at hx; cases hx
      | false =>
          rw [he] at hx
          cases hx
          exact ⟨hconn, hsize, rfl⟩
  · rw [hqueue]
    by_cases hj : j = k
    · subst hj
      rw [Function.update_self, count_eq, hends]
      cases f.ends b <;> simp [hcred]
    · rw [Function.update_of_ne hj]
      simp [Ne.symm hj]

include hm

/-- **Every accepted beat that has a port arrives there**, as its request's next. -/
theorem arrival (hroom : ∀ k, (s.inp.queue k).qmeta.connid = b.connid → (s.fifo k).tready = true)
    (hport : (s.route b).port.isSome = true) : ∃ q x, Arrival f s b q x := by
  cases ho : f.opened b.connid with
  | some a =>
      obtain ⟨k, hroute, hk, hsize, hbytes⟩ := route_owned hO hm hp hroom ho
      have hreq : f.request b = a := by rw [Framing.request, ho]; rfl
      have hbytes' : (s.inp.queue k).counterInst = (f.request b).bytes := by rw [hreq]; exact hbytes
      refine ⟨_, _, arrival_queue hO hp (by rw [hroute]; rfl) (q := s.cleared k)
        (d := ⟨false, (s.cleared k).qmeta.dstPort, (s.cleared k).qmeta.workload,
          (s.cleared k).counter.extractLsb' 0 16, b.connid, b.tlast, b.payload, b.tag⟩)
        ?_ rfl (by rw [hreq]; exact hsize) hk rfl (Or.inr hk)
        (fun j hj => owns_unique hO hp hj hk) ?_⟩
      · rw [Sched.take, hroute, ← hbytes']
        rfl
      · show ((f.opened (s.inp.queue k).qmeta.connid).map _).getD [] = _
        rw [hk, ho, hreq]
        rfl
  | none =>
      have hreq : f.request b = ⟨b.packetSize, 0, []⟩ := by rw [Framing.request, ho]; rfl
      rcases route_unowned hO hm hp ho with ⟨hroute, hfit⟩ | ⟨-, ⟨k, hroute, hfree⟩ | ⟨hroute, -⟩⟩
      · obtain ⟨hsize, hlast⟩ := fitsSingle_size hfit
        have hends : f.ends b = true := by
          simp [Framing.ends, hreq, hlast, hsize]
        have hopen : (f.next b).opened = f.opened := by
          rw [next_opened, hends, if_pos rfl, ← ho, Function.update_eq_self]
        have hbooks := books_take_single hroute
        have hmarks : ∀ p, openMarks (f.next b) (s.take b) p = openMarks f s.inp p := fun p => by
          cases p with
          | single => rfl
          | queue j =>
              show (((f.next b).opened ((s.take b).books j).qmeta.connid).map _).getD [] = _
              rw [hopen, hbooks]
              rfl
        refine ⟨.single, _, by rw [hroute]; rfl, by unfold Sched.take; rw [hroute]; rfl, ?_,
          by rw [hopen, hbooks]; exact hO, by rw [hreq]; rfl, by rw [hmarks, hends]; rfl,
          fun p _ => hmarks p, fun k => ?_, fun _ => ⟨hends, by rw [hreq]⟩⟩
        · rw [hends]
          rfl
        · unfold Sched.take
          rw [hroute]
          simp
      · have hfree' : (s.inp.books k).qmeta = QMeta.free := hfree
        refine ⟨_, _, arrival_queue hO hp (by rw [hroute]; rfl)
          (q := { s.cleared k with
            qmeta := ⟨b.dstPort, b.workload, b.connid⟩, counter := b.packetSize })
          (d := ⟨false, b.dstPort, b.workload, b.reqSize, b.connid, b.tlast, b.payload, b.tag⟩)
          ?_ rfl (by rw [hreq]) rfl rfl (Or.inl hfree')
          (fun j hj => absurd hj (owns_unmatched hO hp ho j)) ?_⟩
        · rw [Sched.take, hroute, hreq]
          rfl
        · show ((f.opened (s.inp.books k).qmeta.connid).map _).getD [] = _
          rw [hfree', free_connid, hO.proper, hreq]
          rfl
      · rw [hroute] at hport
        cases hport

end Arrive

/-! ## 3. The ledger over one edge -/

/-- What is in a port's FIFO and what its strobe offers it. -/
def Sched.contents (s : Sched n τ) (p : Port n) : List (QBeat τ) :=
  (s.fifoAt p).items ++ (s.inp.strobe p).toList

/-- The completed requests the arbiter may take from a queue. -/
def Sched.credit (s : Sched n τ) : Port n → Nat
  | .single => 0
  | .queue k => s.balance k

/-- The credit after both blocks' clears and the output block's deduction. -/
def Sched.creditLeft (s : Sched n τ) : Port n → Nat
  | .single => 0
  | .queue k => (s.cleared k).credits.toNat - (s.outEdge.deduct k).toNat

theorem creditLeft_le (s : Sched n τ) (p : Port n) : s.creditLeft p ≤ s.credit p := by
  cases p with
  | single => exact Nat.le_refl _
  | queue k =>
      rw [Sched.creditLeft, Sched.credit, ← balance_cleared s k]
      rcases deduct_outEdge s k with h | h
      · rw [h]
      · omega

/-- A queue the arbiter is in the middle of: it is read at the edge to come, and has a beat to show
    then or later. -/
def Sched.Reading (s : Sched n τ) : Port n → Prop
  | .single => False
  | .queue k => s.popReady (.queue k) = true ∧ (s.fifo k).items ≠ []

theorem popReady_of_reading {s : Sched n τ} {p : Port n} (h : s.Reading p) : s.popReady p = true := by
  cases p with
  | single => exact h.elim
  | queue k => exact h.1

section Edge

variable {s : Sched n τ} {rx : Option (RxBeat τ)} {t : Bool}

/-- A settling edge writes what was strobed: what is read and what stays is what was there. -/
theorem contents_edge (hs : Settles s rx) (t : Bool) (p : Port n) :
    ((s.fifoAt p).popped (s.popReady p)).toList ++ ((s.edge rx t).fifoAt p).items = s.contents p := by
  have hw : (s.fifoAt p).written (s.inp.strobe p) = s.inp.strobe p := written_of_settles hs p
  rw [fifoAt_edge, StreamFifo.edge_items, hw]
  rfl

theorem contents_edge_other (hs : Settles s rx) (t : Bool) {p : Port n}
    (h : (s.fifoAt p).popped (s.popReady p) = none) :
    ((s.edge rx t).fifoAt p).items = s.contents p := by
  rw [← contents_edge hs t p, h]
  rfl

/-- While nothing is shown the arbiter stays where it is. -/
theorem reading_edge (hone : SelOne s.out) (hrel : Releases s rx) {p : Port n} (h : s.Reading p)
    (hfw : s.forwarded = none) : (s.edge rx t).Reading p := by
  cases p with
  | single => exact h.elim
  | queue k =>
      obtain ⟨hready, hne⟩ := h
      have hhead : (s.fifo k).head? = none := (forwarded_of_popReady hready).symm.trans hfw
      have hv : (s.fifo k).tvalid = false := by rw [StreamFifo.tvalid_eq, hhead]; rfl
      obtain ⟨hc, hsingle⟩ := hrel.pop k hready hne
      refine ⟨?_, fun e => ?_⟩
      · show (s.outEdge.sel k && decide (s.outEdge.number.toNat = k.val)) = true
        rw [outEdge_of_wait hone hsingle hready hv hc]
        exact Bool.and_eq_true_iff.mpr ⟨decide_eq_true rfl, (Bool.and_eq_true_iff.mp hready).2⟩
      · -- what is there and not read stays
        have hkept := contents_edge hrel.settles t (.queue k)
        rw [show ((s.fifoAt (.queue k)).popped (s.popReady (.queue k))) = none by
          rw [hready]; exact hhead] at hkept
        rw [show ((s.edge rx t).fifoAt (.queue k)).items = [] from e] at hkept
        exact hne (List.append_eq_nil_iff.mp hkept.symm).1

/-- What an end read from queue `k`, or a beat that is not one, leaves of its credit and of the
    arbiter. -/
theorem outEdge_of_read (hone : SelOne s.out) (hrel : Releases s rx) {k : Fin n} {x : QBeat τ}
    (hready : s.popReady (.queue k) = true) (hhead : (s.fifo k).head? = some x) :
    0 < s.balance k ∧
    ((x.requestEnd = true ∧ s.creditLeft (.queue k) ≤ s.credit (.queue k) - 1) ∨
      (x.requestEnd = false ∧ (s.edge rx t).popReady (.queue k) = true)) := by
  have hv : (s.fifo k).tvalid = true := by rw [StreamFifo.tvalid_eq, hhead]; rfl
  have hne : (s.fifo k).items ≠ [] := fun e => by
    rw [StreamFifo.head?_of_empty e] at hhead
    cases hhead
  obtain ⟨hc, hsingle⟩ := hrel.pop k hready hne
  have hlt : (s.out.deduct k).toNat < (s.inp.queue k).credits.toNat := hc
  have hends : s.headEnds k = x.requestEnd := by rw [Sched.headEnds, hhead]; rfl
  refine ⟨Nat.sub_pos_of_lt hlt, ?_⟩
  rcases outEdge_of_pop hone hsingle hready hv hc with ⟨he, hd⟩ | ⟨he, hsel, hnum⟩
  · refine Or.inl ⟨hends ▸ he, ?_⟩
    have hcred : (s.cleared k).credits = (s.inp.queue k).credits :=
      if_neg fun e => absurd hlt (by rw [e]; exact Nat.lt_irrefl _)
    rw [Sched.creditLeft, Sched.credit, hd, hcred, Sched.balance]
    omega
  · refine Or.inr ⟨hends ▸ he, ?_⟩
    have hk : s.out.number.toNat = k.val := of_decide_eq_true (Bool.and_eq_true_iff.mp hready).2
    have := s.out.number.isLt
    show (s.outEdge.sel k && decide (s.outEdge.number.toNat = k.val)) = true
    rw [hsel, hnum, BitVec.toNat_ofNat]
    simp only [Bool.true_and, decide_eq_true_eq]
    exact Nat.mod_eq_of_lt (by omega)

variable {L : Ledger (Port n) (Line τ)} {complete : List (List (Mark τ))} {out : List (Mark τ)}
  {part : Port n → List (Mark τ)}

/-- **The output half of an edge**: what is read is the next beat of the request being read, or the
    first of a completed one, or nothing. -/
theorem ledger_read (hrel : Releases s rx) (hone : SelOne s.out)
    (hended : ∀ x ∈ s.contents .single, x.requestEnd = true) (hpart : part .single = [])
    (hL : L.Holds complete out (fun p => (s.contents p).map (·.mark)) part s.credit)
    (hfront : ∀ p, L.front = some p → s.Reading p) :
    ∃ L' : Ledger (Port n) (Line τ),
      L'.Holds complete (out ++ s.forwarded.toList.map (·.mark))
        (fun p => ((s.edge rx t).fifoAt p).items.map (·.mark)) part s.creditLeft ∧
      ∀ p, L'.front = some p → (s.edge rx t).Reading p := by
  cases hfw : s.forwarded with
  | none =>
      have hitems : (fun p => ((s.edge rx t).fifoAt p).items.map (·.mark)) =
          fun p => (s.contents p).map (·.mark) := by
        funext p
        rw [contents_edge_other hrel.settles]
        cases hp : s.popReady p with
        | false => rfl
        | true => rw [StreamFifo.popped_true, ← forwarded_of_popReady hp, hfw]
      refine ⟨L, ?_, fun p hp => reading_edge hone hrel (hfront p hp) hfw⟩
      rw [hitems]
      simpa using hL.credit_le (creditLeft_le s)
  | some x =>
      obtain ⟨p, hready, hhead⟩ := popped_of_forwarded hfw
      have hcontents : s.contents p = x :: ((s.edge rx t).fifoAt p).items := by
        rw [← contents_edge hrel.settles t p, hready, StreamFifo.popped_true, hhead]
        rfl
      have hitems : (fun p => ((s.edge rx t).fifoAt p).items.map (·.mark)) =
          Function.update (fun p => (s.contents p).map (·.mark)) p
            (((s.edge rx t).fifoAt p).items.map (·.mark)) := by
        funext j
        by_cases hj : j = p
        · rw [hj, Function.update_self]
        · have hno : s.popReady j = false :=
            Bool.eq_false_iff.mpr fun e => hj (popReady_unique e hready)
          rw [Function.update_of_ne hj, contents_edge_other hrel.settles t (by rw [hno]; rfl)]
      have hqueue : (s.contents p).map (·.mark) =
          x.mark :: ((s.edge rx t).fifoAt p).items.map (·.mark) := by
        rw [hcontents]
        rfl
      have hf : ∀ p', L.front = some p' → p' = p := fun p' h' =>
        popReady_unique (popReady_of_reading (hfront p' h')) hready
      have hread : L.waiting p ≠ [] ∧
          ((x.requestEnd = true ∧ s.creditLeft p ≤ s.credit p - 1) ∨
            (x.requestEnd = false ∧
              (((s.edge rx t).fifoAt p).items ≠ [] → (s.edge rx t).Reading p))) := by
        cases p with
        | single =>
            refine ⟨hL.waiting_of_part hpart (by rw [hqueue]; exact List.cons_ne_nil _ _),
              Or.inl ⟨hended x (by rw [hcontents]; exact List.mem_cons_self ..), Nat.zero_le _⟩⟩
        | queue k =>
            obtain ⟨hpos, hbr⟩ := outEdge_of_read (t := t) hone hrel hready hhead
            exact ⟨hL.waiting_of_credit hpos, hbr.imp_right fun h => ⟨h.1, fun hne => ⟨h.2, hne⟩⟩⟩
      obtain ⟨hw, hbr⟩ := hread
      have hcredit : x.mark.2 = true → s.creditLeft p ≤ s.credit p - 1 := fun e => by
        rcases hbr with ⟨-, h⟩ | ⟨h, -⟩
        · exact h
        · rw [mark_ends, h] at e; cases e
      obtain ⟨⟨L', hL', hfr⟩, hrest⟩ := hL.pop hqueue hw hf (creditLeft_le s) hcredit
      refine ⟨L', by rw [hitems]; exact hL', fun p' hp' => ?_⟩
      rcases hbr with ⟨he, -⟩ | ⟨he, hreading⟩
      · rw [hfr, mark_ends, he] at hp'
        cases hp'
      · rw [hfr, mark_ends, he] at hp'
        cases hp'
        exact hreading fun e => hrest he (by rw [e]; rfl)

/-- **The input half of an edge**: an accepted beat joins its request, which waits once it is
    complete. -/
theorem ledger_intake {f : Framing τ} (hrel : Releases s rx) (hm : s.inp.metaSingle = QMeta.free)
    (hO : Owns f.opened Books.Tracks s.inp.books)
    (hL : L.Holds f.complete out (fun p => ((s.edge rx t).fifoAt p).items.map (·.mark))
      (openMarks f s.inp) s.creditLeft) {b : RxBeat τ} (ha : s.accepted rx = some b) :
    (∃ L' : Ledger (Port n) (Line τ),
      L'.Holds (f.next b).complete out (fun p => ((s.edge rx t).contents p).map (·.mark))
        (openMarks (f.next b) (s.take b)) (s.edge rx t).credit ∧ L'.front = L.front) ∧
    Owns (f.next b).opened Books.Tracks (s.take b).books ∧
    ∀ x, (s.take b).strobe .single = some x → x.requestEnd = true := by
  obtain ⟨hp, hroom⟩ := hrel.beat b ha
  obtain ⟨hport, honly⟩ := hrel.settles.2 b ha
  obtain ⟨q, x, A⟩ := arrival hO hm hp hroom hport
  have hinp : (s.edge rx t).inp = s.take b := inEdge_take ha
  have hother : ∀ p, p ≠ q → (s.take b).strobe p = none := by
    intro p hpq
    rw [strobe_take_other fun e => hpq (Option.some_injective _ (e.symm.trans A.port))]
    refine Option.not_isSome_iff_eq_none.mp fun hne => ?_
    exact hpq (Option.some_injective _ ((honly p hne).symm.trans A.port))
  have hqueue : ∀ p, ((s.edge rx t).contents p).map (·.mark) =
      ((s.edge rx t).fifoAt p).items.map (·.mark) ++ if p = q then [(b.line, f.ends b)] else [] := by
    intro p
    rw [Sched.contents, hinp, List.map_append]
    by_cases hpq : p = q
    · rw [hpq, A.strobe, if_pos rfl, ← A.mark]
      rfl
    · rw [hother p hpq, if_neg hpq]
      rfl
  have hcredit : ∀ p, (s.edge rx t).credit p ≤
      s.creditLeft p + if p = q then (if f.ends b then 1 else 0) else 0 := by
    intro p
    cases p with
    | single => exact Nat.zero_le _
    | queue k =>
        rw [Sched.credit, Sched.creditLeft, Sched.balance, hinp, edge_out, A.credits k]
        by_cases hk : q = .queue k ∧ f.ends b = true
        · have hadd : ((s.cleared k).credits + 1).toNat ≤ (s.cleared k).credits.toNat + 1 := by
            rw [BitVec.toNat_add]
            exact Nat.mod_le _ _
          rw [if_pos hk, if_pos hk.1.symm, if_pos hk.2]
          omega
        · rw [if_neg hk]
          exact Nat.le_add_right _ _
  refine ⟨?_, A.owns, fun x' hx' => ?_⟩
  · cases he : f.ends b with
    | true =>
        rw [he] at hqueue hcredit
        have hcomplete : (f.next b).complete =
            f.complete ++ [openBeats (f.request b).lines ++ [(b.line, true)]] := by
          rw [Framing.next, he]
          rfl
        rw [hcomplete]
        refine hL.arrive_last A.here hqueue (fun p => ?_) hcredit
        by_cases hpq : p = q
        · rw [hpq, A.self, he, if_pos rfl, if_pos rfl]
        · rw [A.other p hpq, if_neg hpq]
    | false =>
        rw [he] at hqueue hcredit
        have hcomplete : (f.next b).complete = f.complete := by
          rw [Framing.next, he]
          rfl
        rw [hcomplete]
        refine ⟨L, (hL.arrive_open hqueue fun p => ?_).credit_le fun p => ?_, rfl⟩
        · by_cases hpq : p = q
          · rw [hpq, A.self, he, if_pos rfl]
            rfl
          · rw [A.other p hpq, if_neg hpq, List.append_nil]
        · simpa using hcredit p
  · by_cases hq : Port.single = q
    · rw [hq, A.strobe] at hx'
      cases hx'
      have hmark : x.requestEnd = f.ends b := congrArg Prod.snd A.mark
      rw [hmark]
      exact (A.single hq.symm).1
    · rw [hother _ hq] at hx'
      cases hx'

end Edge

/-! ## 4. Every run -/

/-- What a run keeps: a ledger for what is forwarded and what waits, one selected queue, the books
    of the requests under way, and only one-beat requests in the single-packet FIFO. -/
structure WholeInv (y : WholeSys n τ) : Prop where
  ledger : ∃ L : Ledger (Port n) (Line τ),
    L.Holds y.framing.complete (y.forwarded.map (·.mark))
      (fun p => (y.sched.contents p).map (·.mark)) (openMarks y.framing y.sched.inp)
      y.sched.credit ∧ ∀ p, L.front = some p → y.sched.Reading p
  one : SelOne y.sched.out
  freeSingle : y.sched.inp.metaSingle = QMeta.free
  owns : Owns y.framing.opened Books.Tracks y.sched.inp.books
  ended : ∀ x ∈ y.sched.contents .single, x.requestEnd = true

theorem wholeInv_init [Inhabited τ] : WholeInv (WholeSys.init n τ) where
  ledger := by
    refine ⟨Ledger.empty, ?_, fun p h => by cases h⟩
    have hqueue : (fun p => ((Sched.reset n τ).contents p).map (·.mark)) =
        fun _ : Port n => ([] : List (Mark τ)) := by
      funext p
      cases p <;> rfl
    have hpart : openMarks Framing.start (Sched.reset n τ).inp =
        fun _ : Port n => ([] : List (Mark τ)) := by
      funext p
      cases p <;> rfl
    have hcredit : (Sched.reset n τ).credit = fun _ => 0 := by
      funext p
      cases p <;> rfl
    show Ledger.empty.Holds [] [] (fun p => ((Sched.reset n τ).contents p).map (·.mark))
      (openMarks Framing.start (Sched.reset n τ).inp) (Sched.reset n τ).credit
    rw [hqueue, hpart, hcredit]
    exact Ledger.holds_empty
  one := selOne_none rfl
  freeSingle := rfl
  owns := owns_closed
  ended x h := by cases h

theorem wholeInv_edge [Inhabited τ] {y : WholeSys n τ} {i : SchedIn τ} (h : WholeInv y)
    (hrel : Releases y.sched i.rx) : WholeInv (y.clock i) := by
  unfold WholeSys.clock
  split
  · exact wholeInv_init
  obtain ⟨L, hL, hfront⟩ := h.ledger
  obtain ⟨L', hL', hfront'⟩ := ledger_read (t := i.txTready) hrel h.one h.ended rfl hL hfront
  have hout : y.forwarded.map (·.mark) ++ y.sched.forwarded.toList.map (·.mark) =
      (y.forwarded ++ y.sched.forwarded.toList).map (·.mark) := (List.map_append ..).symm
  rw [hout] at hL'
  -- what stays in the single-packet FIFO was there before
  have hfifo : ∀ x ∈ ((y.sched.edge i.rx i.txTready).fifoAt .single).items, x.requestEnd = true := by
    intro x hx
    refine h.ended x ?_
    rw [← contents_edge hrel.settles i.txTready]
    exact List.mem_append_right _ hx
  cases ha : y.sched.accepted i.rx with
  | none =>
      have hinp : (y.sched.edge i.rx i.txTready).inp = y.sched.idle := inEdge_idle ha
      have hcontents : ∀ p, (y.sched.edge i.rx i.txTready).contents p =
          ((y.sched.edge i.rx i.txTready).fifoAt p).items := fun p => by
        rw [Sched.contents, hinp, strobe_idle]
        exact List.append_nil _
      have hpart : openMarks y.framing y.sched.idle = openMarks y.framing y.sched.inp := by
        funext p
        cases p <;> rfl
      have hcredit : (y.sched.edge i.rx i.txTready).credit = y.sched.creditLeft := by
        funext p
        cases p with
        | single => rfl
        | queue k =>
            rw [Sched.credit, Sched.balance, hinp]
            rfl
      refine ⟨⟨L', ?_, hfront'⟩, selOne_outEdge h.one, ?_, ?_, fun x hx => hfifo x ?_⟩
      · show L'.Holds y.framing.complete _ _ (openMarks y.framing (y.sched.edge _ _).inp) _
        rw [hinp, hpart, hcredit]
        simp only [hcontents]
        exact hL'
      · show (y.sched.edge _ _).inp.metaSingle = QMeta.free
        rw [hinp]
        exact h.freeSingle
      · show Owns y.framing.opened Books.Tracks (y.sched.edge _ _).inp.books
        rw [hinp, books_idle]
        exact h.owns
      · rw [← hcontents]
        exact hx
  | some b =>
      have hinp : (y.sched.edge i.rx i.txTready).inp = y.sched.take b := inEdge_take ha
      obtain ⟨⟨L'', hL'', hfr⟩, hO, hstrobe⟩ :=
        ledger_intake hrel h.freeSingle h.owns hL' ha
      refine ⟨⟨L'', ?_, fun p hp => hfront' p (hfr ▸ hp)⟩, selOne_outEdge h.one, ?_, ?_,
        fun x hx => ?_⟩
      · show L''.Holds (y.framing.next b).complete _ _ (openMarks _ (y.sched.edge _ _).inp) _
        rw [hinp]
        exact hL''
      · show (y.sched.edge _ _).inp.metaSingle = QMeta.free
        rw [hinp]
        exact take_metaSingle h.freeSingle b
      · show Owns (y.framing.next b).opened Books.Tracks (y.sched.edge _ _).inp.books
        rw [hinp]
        exact hO
      · rcases List.mem_append.mp hx with hx | hx
        · exact hfifo x hx
        · refine hstrobe x ?_
          rw [← hinp]
          exact Option.mem_toList.mp hx

/-- **Requests are forwarded whole in every run of releasing edges**: over any interleaving of
    connections and of one-beat and longer requests, the beats forwarded are completed requests one
    after the other, so a request's beats are contiguous and follow its final beat's acceptance. -/
theorem requests_stay_whole [Inhabited τ] {y : WholeSys n τ}
    (hr : Reachable WholeSys.clock (fun y i => Releases y.sched i.rx) (WholeSys.init n τ) y) :
    Whole y := by
  have hinv := hr.invariant wholeInv_init fun _ _ h hrel => wholeInv_edge h hrel
  obtain ⟨L, hL, -⟩ := hinv.ledger
  exact hL.whole

/-- What a whole stream begins with begins a completed request, unless one ends before. -/
theorem whole_begins {y : WholeSys n τ} (h : Whole y) (ms : List (Mark τ)) (hne : ms ≠ [])
    (hms : ms <+: y.forwarded.map (·.mark)) (hno : ∀ r ∈ y.framing.complete, ¬ r <+: ms) :
    ∃ r ∈ y.framing.complete, ms <+: r := by
  obtain ⟨rs, pre, hstream, hrs, hpre⟩ := h
  rw [hstream] at hms
  cases rs with
  | nil =>
      have hms' : ms <+: pre := hms
      obtain ⟨rest, hrest⟩ := hpre.resolve_left fun e => hne (List.prefix_nil.mp (e ▸ hms'))
      exact ⟨_, hrest, hms'.trans (List.prefix_append ..)⟩
  | cons r rs =>
      have hr := hrs r (List.mem_cons_self ..)
      have hpr : r <+: (r :: rs).flatten ++ pre := by
        rw [List.flatten_cons, List.append_assoc]
        exact List.prefix_append ..
      exact ⟨r, hr, (List.prefix_or_prefix_of_prefix hpr hms).resolve_left (hno r hr)⟩

end Run

/-! ## 5. Two runs, with the FIFOs of the source -/

section Source

attribute [local instance] axisDataFifos

/-- A beat of a request of `size` bytes on a connection; `length` counts its packet's bytes. -/
def requestBeat (conn : BitVec 16) (size : BitVec 32) (length : BitVec 16) (last : Bool) (tag : Nat) :
    RxBeat Nat where
  dstPort := 0
  packetSize := size
  workload := 0
  length := length
  connid := conn
  tlast := last
  payload := BitVec.twoPow 512 480
  tag := tag

/-- A request in two packets, and a one-beat request of another connection between them. -/
def mixedRun : List (SchedIn Nat) :=
  [rxEdge (some (requestBeat 1 128 64 true 10)), rxEdge none,
    rxEdge (some (requestBeat 2 64 64 true 20)), rxEdge none,
    rxEdge (some (requestBeat 1 128 64 true 11))] ++ List.replicate 10 (rxEdge none)

theorem requests_stay_whole_mixed :
    Whole (run WholeSys.clock (WholeSys.init 2 Nat) mixedRun) ∧
    (run WholeSys.clock (WholeSys.init 2 Nat) mixedRun).forwarded.map (·.tag) = [20, 10, 11] :=
  ⟨requests_stay_whole (Reachable.of_run mixedRun (by decide +kernel)), by decide +kernel⟩

/-- A request of `k` lines in one packet, back to back; the tags count its lines from `tag` on. -/
def burst (conn : BitVec 16) (k tag : Nat) : List (SchedIn Nat) :=
  (List.range k).map fun j =>
    rxEdge (some (requestBeat conn (.ofNat 32 (64 * k)) (.ofNat 16 (64 * k)) (decide (j + 1 = k)) (tag + j)))

/-- A request of five lines in one packet and, two edges later, a one-beat request. -/
def preemptedRun : List (SchedIn Nat) :=
  burst 1 5 10 ++ rxEdge none :: burst 2 1 20 ++ List.replicate 12 (rxEdge none)

/-- **A one-beat request cuts another in two**: it is forwarded before the last of its beats. -/
theorem single_preempts_request :
    ¬ ∀ y : WholeSys 2 Nat, Reachable WholeSys.clock (fun _ _ => True) (WholeSys.init 2 Nat) y →
      Whole y := by
  intro h
  have hw := h (run WholeSys.clock (WholeSys.init 2 Nat) preemptedRun)
    (Reachable.of_run preemptedRun (Meets.of_forall (fun _ _ => trivial) _ _))
  obtain ⟨r, hr, hpre⟩ := whole_begins hw
    (((run WholeSys.clock (WholeSys.init 2 Nat) preemptedRun).forwarded.take 5).map (·.mark))
    (by decide +kernel) (by rw [List.map_take]; exact List.take_prefix ..) (by decide +kernel)
  exact absurd hpre ((by decide +kernel :
    ∀ r ∈ (run WholeSys.clock (WholeSys.init 2 Nat) preemptedRun).framing.complete,
      ¬ ((run WholeSys.clock (WholeSys.init 2 Nat) preemptedRun).forwarded.take 5).map (·.mark) <+: r)
    r hr)

end Source

end Frac.Reassembly
