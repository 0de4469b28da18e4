/-
  File:      Frac/Reassembly/Solo.lean
  Subject:   The scheduler with one request at a time: from the first beat accepted to the last one
             forwarded, through the first queue or the single-packet queue.

  * `Label.beats` -- the beats a request leaves with; `completes_last` -- the byte count reaches
    the declared size at the last beat and not before;
  * `Phase` -- where the request is, and how many edges are left;
  * `phase_edge` -- **every edge keeps the order of the beats**, and brings the request on.
-/
import Frac.Reassembly.Arbiter

namespace Frac.Reassembly

variable {n : Nat} {τ : Type}

/-! ## 1. The beats of a request -/

/-- What every beat of a request carries. -/
structure Label where
  connid : BitVec 16
  workload : BitVec 16
  size : BitVec 32

/-- The beat carries the label. -/
structure Label.On (r : Label) (b : RxBeat τ) : Prop where
  dstPort : b.dstPort = 0
  size : b.packetSize = r.size
  workload : b.workload = r.workload
  connid : b.connid = r.connid

/-- The beat as it leaves, marked as the request's last or not. -/
def Label.beat (r : Label) (last : Bool) (b : RxBeat τ) : QBeat τ :=
  ⟨last, 0, r.workload, r.size.extractLsb' 0 16, r.connid, last, b.payload, b.tag⟩

/-- What is left of a request as it leaves. -/
def Label.beats (r : Label) : List (RxBeat τ) → List (QBeat τ)
  | [] => []
  | b :: bs => r.beat bs.isEmpty b :: r.beats bs

/-- The bytes of the packets that end in `bs`. -/
def packetBytes : List (RxBeat τ) → Nat
  | [] => 0
  | b :: bs => (if b.tlast then b.length.toNat else 0) + packetBytes bs

/-- What is left of a request, as it arrives: no packet is empty, the last one ends. -/
structure Label.Rest (r : Label) (bs : List (RxBeat τ)) : Prop where
  on : ∀ b ∈ bs, r.On b
  pos : ∀ b ∈ bs, 0 < b.length.toNat
  last : ∀ b, bs.getLast? = some b → b.tlast = true

section Beats

variable {r : Label} {b : RxBeat τ} {bs us : List (RxBeat τ)}

theorem beats_length (r : Label) (bs : List (RxBeat τ)) : (r.beats bs).length = bs.length := by
  induction bs with
  | nil => rfl
  | cons b bs ih => exact congrArg Nat.succ ih

/-- Before the last beats, none is marked. -/
theorem beats_append (r : Label) (bs : List (RxBeat τ)) (hus : us ≠ []) :
    r.beats (bs ++ us) = bs.map (r.beat false) ++ r.beats us := by
  induction bs with
  | nil => rfl
  | cons b bs ih =>
      have hne : (bs ++ us).isEmpty = false := by simp [hus]
      show r.beat (bs ++ us).isEmpty b :: r.beats (bs ++ us) = _
      rw [hne, ih]
      rfl

theorem rest_nil : r.Rest ([] : List (RxBeat τ)) where
  on _ h := by cases h
  pos _ h := by cases h
  last _ h := by cases h

theorem Label.Rest.tail (h : r.Rest (b :: bs)) : r.Rest bs where
  on b' hb' := h.on b' (List.mem_cons_of_mem _ hb')
  pos b' hb' := h.pos b' (List.mem_cons_of_mem _ hb')
  last b' hb' := h.last b' (by rw [List.getLast?_cons, hb']; rfl)

theorem Label.Rest.suffix (bs : List (RxBeat τ)) (h : r.Rest (bs ++ us)) : r.Rest us := by
  induction bs with
  | nil => exact h
  | cons b bs ih => exact ih h.tail

theorem packetBytes_pos (h : r.Rest bs) (hne : bs ≠ []) : 0 < packetBytes bs := by
  induction bs with
  | nil => exact absurd rfl hne
  | cons b bs ih =>
      cases bs with
      | nil =>
          have hlast : b.tlast = true := h.last b rfl
          have := h.pos b (by simp)
          simp [packetBytes, hlast, this]
      | cons b' bs => exact Nat.lt_of_lt_of_le (ih h.tail (by simp)) (Nat.le_add_left _ _)

/-- **The byte count reaches the declared size at the last beat and not before.** -/
theorem completes_last {q : QueueRegs τ} {acc : BitVec 32} (h : r.Rest (b :: bs))
    (hsize : q.counter = r.size) (hacc : acc.toNat + packetBytes (b :: bs) = r.size.toNat) :
    q.completes b acc = bs.isEmpty ∧ (countedBytes b acc).toNat + packetBytes bs = r.size.toNat := by
  unfold QueueRegs.completes countedBytes
  rw [hsize]
  simp only [packetBytes] at hacc
  cases htl : b.tlast with
  | false =>
      rw [htl, if_neg (by simp), Nat.zero_add] at hacc
      have hne : bs ≠ [] := by
        rintro rfl
        rw [h.last b rfl] at htl
        cases htl
      exact ⟨by simp [hne], by simpa using hacc⟩
  | true =>
      rw [htl, if_pos rfl] at hacc
      have hlt := r.size.isLt
      have hsum : (acc + b.length.setWidth 32).toNat = acc.toNat + b.length.toNat := by
        have := b.length.isLt
        rw [BitVec.toNat_add, BitVec.toNat_setWidth,
          Nat.mod_eq_of_lt (by omega : b.length.toNat < 2 ^ 32)]
        exact Nat.mod_eq_of_lt (by omega)
      refine ⟨?_, by rw [if_pos rfl, hsum]; omega⟩
      have hge : acc + b.length.setWidth 32 ≥ r.size ↔
          r.size.toNat ≤ acc.toNat + b.length.toNat := by
        rw [ge_iff_le, BitVec.le_def, hsum]
      rw [Bool.true_and]
      cases bs with
      | nil =>
          simp only [packetBytes] at hacc
          exact decide_eq_true (hge.mpr (by omega))
      | cons b' bs =>
          have := packetBytes_pos h.tail (by simp)
          exact decide_eq_false fun hc => absurd (hge.mp hc) (by omega)

end Beats

/-! ## 2. Where the request is -/

variable [FifoKind]

/-- The queues other than `z` hold nothing and want nothing. -/
structure Others (z : Fin n) (s : Sched n τ) : Prop where
  qmeta : ∀ k, k ≠ z → (s.inp.queue k).qmeta = QMeta.free
  tvalid : ∀ k, k ≠ z → (s.inp.queue k).tvalid = false
  credits : ∀ k, k ≠ z → (s.inp.queue k).credits = 0
  deduct : ∀ k, k ≠ z → s.out.deduct k = 0
  sel : ∀ k, k ≠ z → s.out.sel k = false
  items : ∀ k, k ≠ z → (s.fifo k).items = []

/-- What holds between any two edges. -/
structure Calm (z : Fin n) (s : Sched n τ) : Prop where
  rxTready : s.inp.rxTready = true
  metaSingle : s.inp.metaSingle = QMeta.free
  others : Others z s

/-- Queue `z` holds no beat and is filled by no request. -/
structure QueueIdle (z : Fin n) (s : Sched n τ) : Prop where
  qmeta : (s.inp.queue z).qmeta = QMeta.free
  tvalid : (s.inp.queue z).tvalid = false
  items : (s.fifo z).items = []
  credits : (s.inp.queue z).credits = s.out.deduct z

/-- The single-packet FIFO is empty and stays so. -/
structure SingleIdle (s : Sched n τ) : Prop where
  tvalid : s.inp.tvalidSingle = false
  items : s.fifoSingle.items = []

/-- Queue `z` is filled by the request: `bs` has been accepted, `us` is still to come. -/
structure Gathers (r : Label) (z : Fin n) (s : Sched n τ) (us bs : List (RxBeat τ)) : Prop where
  qmeta : (s.inp.queue z).qmeta = ⟨0, r.workload, r.connid⟩
  counter : (s.inp.queue z).counter = r.size
  bytes : (s.inp.queue z).counterInst.toNat + packetBytes us = r.size.toNat
  credits : (s.inp.queue z).credits = 0
  deduct : s.out.deduct z = 0
  unread : s.out.sel z = true → (s.fifo z).items = []
  held : (s.fifo z).items ++ (s.inp.strobe (.queue z)).toList = bs.map (r.beat false)

/-- Queue `z` has the whole of a request, and the credit for it. -/
structure Released (z : Fin n) (s : Sched n τ) : Prop where
  qmeta : (s.inp.queue z).qmeta = QMeta.free
  credits : (s.inp.queue z).credits = 1
  deduct : s.out.deduct z = 0

/-- **Where the request is**: `us` are the beats not yet accepted, `bs` those accepted and not yet
    forwarded, `m` bounds the edges until all accepted beats are forwarded once `us` is empty. -/
inductive Phase (r : Label) (z : Fin n) (s : Sched n τ) :
    List (RxBeat τ) → List (RxBeat τ) → Nat → Prop where
  /-- nothing is held; a request may be about to come -/
  | rest (us : List (RxBeat τ)) (hq : QueueIdle z s) (hs : SingleIdle s)
      (hus : us = [] ∨ (packetBytes us = r.size.toNat ∧ ∀ b ∈ us.head?, b.isHeader = true)) :
      Phase r z s us [] (if us = [] then 0 else us.length + 3 + FifoKind.latency)
  /-- the queue is being filled -/
  | gather (us bs : List (RxBeat τ)) (hus : us ≠ []) (hbs : bs ≠ []) (hq : Gathers r z s us bs)
      (hs : SingleIdle s) : Phase r z s us bs ((bs ++ us).length + 3 + FifoKind.latency)
  /-- the last beat was accepted at the last edge -/
  | full (bs : List (RxBeat τ)) (hbs : 2 ≤ bs.length) (hq : Released z s) (hs : SingleIdle s)
      (hsel : s.out.sel z = false)
      (held : (s.fifo z).items ++ (s.inp.strobe (.queue z)).toList = r.beats bs) :
      Phase r z s [] bs (bs.length + 2 + FifoKind.latency)
  /-- the queue is selected; the mux turns to it where its FIFO shows a beat -/
  | read (bs : List (RxBeat τ)) (hbs : bs ≠ []) (hq : Released z s) (hs : SingleIdle s)
      (hsel : s.out.sel z = true) (htv : (s.inp.queue z).tvalid = false)
      (held : (s.fifo z).items = r.beats bs) (hnum : s.out.number.toNat = z.val ∨ 2 ≤ bs.length) :
      Phase r z s [] bs (bs.length + (if s.out.number.toNat = z.val then 0 else 1) + (s.fifo z).settling)
  /-- a one-beat request at the strobe of the single-packet FIFO -/
  | strobed (b : RxBeat τ) (hq : QueueIdle z s) (hs : s.fifoSingle.items = [])
      (hstrobe : s.inp.strobe .single = some (r.beat true b)) : Phase r z s [] [b] (3 + FifoKind.latency)
  /-- a one-beat request in the single-packet FIFO -/
  | stored (b : RxBeat τ) (hq : QueueIdle z s) (hs : s.inp.tvalidSingle = false)
      (held : s.fifoSingle.items = [r.beat true b])
      (hshown : s.out.selSingle = true → s.fifoSingle.tvalid = true) :
      Phase r z s [] [b] ((if s.popReady .single = true then 1 else 2) + s.fifoSingle.settling)

/-! ## 3. The output block -/

section Output

variable {s : Sched n τ} {z : Fin n}

theorem others_noCredit (hO : Others z s) {k : Fin n} (hk : k ≠ z) : s.hasCredit k = false := by
  refine decide_eq_false ?_
  rw [hO.credits k hk]
  exact Nat.not_lt_zero _

theorem others_ne (hO : Others z s) {k : Fin n} (h : s.hasCredit k = true) : k = z := by
  by_contra hk
  rw [others_noCredit hO hk] at h
  cases h

/-- The output block leaves the other queues alone. -/
theorem outEdge_others (hO : Others z s) {k : Fin n} (hk : k ≠ z) :
    s.outEdge.deduct k = s.deducted k ∧ s.outEdge.sel k = false := by
  have honly : only z k = false := decide_eq_false hk
  rcases outEdge_cases s with ⟨-, e⟩ | ⟨hs, ⟨a, -, hc, hbr⟩ | ⟨-, ⟨c, hc, e⟩ | ⟨-, e⟩⟩⟩
  · rw [e]
    exact ⟨rfl, rfl⟩
  · obtain rfl := others_ne hO hc
    rcases hbr with ⟨-, -, e⟩ | ⟨-, -, e⟩ | ⟨-, e⟩
    · obtain ⟨hd, -, -, hsel⟩ := finishRequest_cases s a hs
      rw [e, hd, Function.update_of_ne hk]
      refine ⟨rfl, ?_⟩
      rcases hsel with hsel | ⟨j, hv, -, hsel⟩
      · rw [hsel, Function.update_of_ne hk]
        exact hO.sel k hk
      · have hj : j = a := by
          by_contra hj
          rw [StreamFifo.tvalid_of_empty (hO.items j hj)] at hv
          cases hv
        rw [hsel, hj, Function.update_of_ne hk, Function.update_of_ne hk]
        exact hO.sel k hk
    · rw [e]
      exact ⟨rfl, honly⟩
    · rw [e]
      exact ⟨rfl, honly⟩
  · obtain rfl := others_ne hO hc
    rw [e]
    exact ⟨rfl, honly⟩
  · rw [e]
    exact ⟨rfl, rfl⟩

theorem single_invalid (h : s.fifoSingle.items = []) : s.fifoSingle.tvalid = false :=
  StreamFifo.tvalid_of_empty h

/-- With nothing to read the output block only moves its selection. -/
theorem outEdge_unread (hO : Others z s) (hs : s.fifoSingle.tvalid = false)
    (hz : s.hasCredit z = false ∨ (s.fifo z).items = []) :
    s.outEdge.deduct z = s.deducted z ∧ s.outEdge.number = s.out.number ∧
      (s.hasCredit z = false → s.outEdge.sel z = false) := by
  rcases outEdge_cases s with ⟨h, -⟩ | ⟨-, ⟨a, -, hc, hbr⟩ | ⟨-, ⟨c, hc, e⟩ | ⟨-, e⟩⟩⟩
  · rw [hs] at h
    cases h
  · obtain rfl := others_ne hO hc
    have hempty := StreamFifo.tvalid_of_empty (hz.resolve_left (by rw [hc]; exact Bool.noConfusion))
    rcases hbr with ⟨hv, -⟩ | ⟨hv, -⟩ | ⟨-, e⟩
    · rw [hempty] at hv
      cases hv
    · rw [hempty] at hv
      cases hv
    · rw [e]
      exact ⟨rfl, rfl, fun h => by rw [hc] at h; cases h⟩
  · obtain rfl := others_ne hO hc
    rw [e]
    exact ⟨rfl, rfl, fun h => by rw [hc] at h; cases h⟩
  · rw [e]
    exact ⟨rfl, rfl, fun _ => rfl⟩

theorem released_credit (hq : Released z s) :
    s.hasCredit z = true ∧ s.deducted z = 0 ∧ (s.cleared z).credits = 1 := by
  have hne : (s.inp.queue z).credits ≠ s.out.deduct z := by
    rw [hq.credits, hq.deduct]
    decide
  have hd : s.deducted z = 0 := by rw [Sched.deducted, if_neg hne, hq.deduct]
  refine ⟨?_, hd, ?_⟩
  · rw [Sched.hasCredit, hd, hq.credits]
    decide
  · rw [cleared_credits, if_neg hne, hq.credits]

/-- A queue that has its request whole is selected, and stays so while it shows nothing. -/
theorem outEdge_released (hO : Others z s) (hs : s.fifoSingle.items = []) (hq : Released z s)
    (hwait : s.out.sel z = false ∨ (s.fifo z).tvalid = false) :
    s.outEdge.deduct z = 0 ∧ s.outEdge.number = s.out.number ∧ s.outEdge.sel z = true := by
  obtain ⟨hc, hd, -⟩ := released_credit hq
  rcases outEdge_cases s with ⟨h, -⟩ | ⟨-, ⟨a, ha, hca, hbr⟩ | ⟨-, ⟨c, hcc, e⟩ | ⟨hno, -⟩⟩⟩
  · rw [single_invalid hs] at h
    cases h
  · obtain rfl := others_ne hO hca
    have hnone := hwait.resolve_left (by rw [ha]; exact Bool.noConfusion)
    rcases hbr with ⟨hv, -⟩ | ⟨hv, -⟩ | ⟨-, e⟩
    · rw [hnone] at hv
      cases hv
    · rw [hnone] at hv
      cases hv
    · rw [e]
      exact ⟨hd, rfl, decide_eq_true rfl⟩
  · obtain rfl := others_ne hO hcc
    rw [e]
    exact ⟨hd, rfl, decide_eq_true rfl⟩
  · rw [hno z] at hc
    cases hc

/-- The selected queue's request goes on, or ends and is deducted. -/
theorem outEdge_reading (hO : Others z s) (hs : s.fifoSingle.items = []) (hq : Released z s)
    (hsel : s.out.sel z = true) (hv : (s.fifo z).tvalid = true) :
    s.outEdge.number = BitVec.ofNat 8 z.val ∧
    ((s.headEnds z = true ∧ s.outEdge.deduct z = 1) ∨
      (s.headEnds z = false ∧ s.outEdge.deduct z = 0 ∧ s.outEdge.sel z = true)) := by
  obtain ⟨hc, hd, -⟩ := released_credit hq
  have hs' := single_invalid hs
  rcases outEdge_cases s with ⟨h, -⟩ | ⟨-, ⟨a, -, hca, hbr⟩ | ⟨hno, -⟩⟩
  · rw [hs'] at h
    cases h
  · obtain rfl := others_ne hO hca
    rcases hbr with ⟨-, he, e⟩ | ⟨-, he, e⟩ | ⟨h, -⟩
    · obtain ⟨hded, hnum, -⟩ := finishRequest_cases s a hs'
      rw [e, hded, hnum, Function.update_self, hd]
      exact ⟨rfl, Or.inl ⟨he, rfl⟩⟩
    · rw [e]
      exact ⟨rfl, Or.inr ⟨he, hd, decide_eq_true rfl⟩⟩
    · rw [hv] at h
      cases h
  · have h := hno z
    rw [hsel, hc] at h
    cases h

/-- Where the single-packet FIFO shows a beat it is selected. -/
theorem outEdge_single (hs : s.fifoSingle.tvalid = true) :
    s.outEdge = ⟨fun _ => false, true, s.deducted, BitVec.ofNat 8 n⟩ := by
  rcases outEdge_cases s with ⟨-, e⟩ | ⟨h, -⟩
  · exact e
  · rw [hs] at h
    cases h

/-- Nothing is forwarded where every FIFO that is read shows nothing. -/
theorem forwarded_none (h : ∀ p, s.popReady p = true → (s.fifoAt p).head? = none) :
    s.forwarded = none := by
  cases hf : s.forwarded with
  | none => rfl
  | some x =>
      obtain ⟨p, hp, hx⟩ := popped_of_forwarded hf
      rw [h p hp] at hx
      cases hx

/-- Only the single-packet FIFO and queue `z` can be read. -/
theorem forwarded_idle (hO : Others z s) (hs : s.popReady .single = true → s.fifoSingle.head? = none)
    (hz : s.popReady (.queue z) = true → (s.fifo z).head? = none) : s.forwarded = none := by
  refine forwarded_none fun p hp => ?_
  cases p with
  | single => exact hs hp
  | queue k =>
      by_cases hk : k = z
      · subst hk
        exact hz hp
      · exact StreamFifo.head?_of_empty (hO.items k hk)

end Output

/-! ## 4. The input block -/

section Input

variable {s : Sched n τ} {z : Fin n} {r : Label} {b : RxBeat τ} {us bs : List (RxBeat τ)}
  {rx : Option (RxBeat τ)}

/-- A queue no beat goes to, as the input block leaves it where its strobe is down. -/
def Sched.passed (s : Sched n τ) (k : Fin n) : QueueRegs τ := { s.cleared k with tvalid := false }

theorem cleared_passed {k : Fin n} (h : (s.inp.queue k).tvalid = false) :
    s.cleared k = s.passed k := by
  simp only [Sched.passed, Sched.cleared, h]

/-- What holds between any two edges survives an edge that accepts no beat, or one for `z`. -/
theorem calm_edge (hc : Calm z s) (hready : (s.inEdge rx).rxTready = true)
    (hmeta : (s.inEdge rx).metaSingle = QMeta.free)
    (hin : ∀ k, k ≠ z → (s.inEdge rx).queue k = s.passed k) (t : Bool) :
    Calm z (s.edge rx t) := by
  refine ⟨hready, hmeta, ?_⟩
  constructor <;> intro k hk
  · rw [edge_inp, hin k hk]
    exact hc.others.qmeta k hk
  · rw [edge_inp, hin k hk]
    rfl
  · rw [edge_inp, hin k hk, Sched.passed, cleared_credits, hc.others.credits k hk, ite_self]
  · rw [edge_out, (outEdge_others hc.others hk).1, Sched.deducted, hc.others.deduct k hk, ite_self]
  · exact (outEdge_others hc.others hk).2
  · rw [edge_fifo, strobe_queue_none (hc.others.tvalid k hk)]
    exact StreamFifo.edge_items_empty (hc.others.items k hk) _

/-- The scheduler takes what it is offered. -/
theorem accepted_of_calm (hc : Calm z s) (rx : Option (RxBeat τ)) : s.accepted rx = rx :=
  if_pos hc.rxTready

theorem inEdge_none (hc : Calm z s) : s.inEdge none = s.idle := inEdge_idle (accepted_of_calm hc _)

theorem inEdge_some (hc : Calm z s) : s.inEdge (some b) = s.take b :=
  inEdge_take (accepted_of_calm hc _)

theorem calm_idle (hc : Calm z s) (t : Bool) : Calm z (s.edge none t) := by
  refine calm_edge hc ?_ ?_ (fun k _ => ?_) t <;> rw [inEdge_none hc]
  · rfl
  · exact hc.metaSingle
  · rfl

/-- An accepted beat that goes to `z` or to the single-packet queue. -/
theorem calm_take (hc : Calm z s)
    (hport : (s.route b).port = some .single ∨ (s.route b).port = some (.queue z)) (t : Bool) :
    Calm z (s.edge (some b) t) := by
  have hsome : ∃ p, (s.route b).port = some p := hport.elim (fun e => ⟨_, e⟩) (fun e => ⟨_, e⟩)
  refine calm_edge hc ?_ ?_ (fun k hk => ?_) t <;> rw [inEdge_some hc]
  · exact take_rxTready hsome.choose_spec
  · exact take_metaSingle hc.metaSingle b
  · rw [← cleared_passed (hc.others.tvalid k hk)]
    unfold Sched.take
    cases hr : s.route b with
    | matchSingle => rfl
    | single => rfl
    | reject => rfl
    | matchQueue j =>
        rw [hr] at hport
        rcases hport with e | e <;> cases e
        exact Function.update_of_ne hk ..
    | alloc j =>
        rw [hr] at hport
        rcases hport with e | e <;> cases e
        exact Function.update_of_ne hk ..

/-- An idle queue stays idle at an edge that accepts nothing for it and deducts nothing from it. -/
theorem queueIdle_edge (hq : QueueIdle z s) (hin : (s.inEdge rx).queue z = s.passed z)
    (hout : s.outEdge.deduct z = s.deducted z) (t : Bool) : QueueIdle z (s.edge rx t) := by
  refine ⟨?_, ?_, ?_, ?_⟩
  · rw [edge_inp, hin]
    exact hq.qmeta
  · rw [edge_inp, hin]
    rfl
  · rw [edge_fifo, strobe_queue_none hq.tvalid]
    exact StreamFifo.edge_items_empty hq.items _
  · rw [edge_inp, edge_out, hin, hout, Sched.passed, cleared_credits, Sched.deducted,
      if_pos hq.credits, if_pos hq.credits]

theorem singleIdle_edge (hs : SingleIdle s) (hin : (s.inEdge rx).tvalidSingle = false) (t : Bool) :
    SingleIdle (s.edge rx t) := by
  refine ⟨hin, ?_⟩
  rw [edge_fifoSingle, strobe_single_none hs.tvalid]
  exact StreamFifo.edge_items_empty hs.items _

omit [FifoKind] in
/-- The last beat of a request, and only it, is a one-beat request's header. -/
theorem fits_last (h : r.Rest (b :: us)) (hbytes : packetBytes (b :: us) = r.size.toNat) :
    (decide (b.packetSize = b.length.setWidth 32) && b.tlast) = us.isEmpty := by
  have hsize := (h.on b (by simp)).size
  have hlen : (b.length.setWidth 32).toNat = b.length.toNat := by
    have := b.length.isLt
    rw [BitVec.toNat_setWidth]
    exact Nat.mod_eq_of_lt (by omega)
  simp only [packetBytes] at hbytes
  cases us with
  | nil =>
      have hlast : b.tlast = true := h.last b rfl
      have heq : b.packetSize = b.length.setWidth 32 := by
        refine BitVec.eq_of_toNat_eq ?_
        rw [hsize, hlen, ← hbytes, hlast]
        rfl
      simp [hlast, heq]
  | cons b' us =>
      have hpos := packetBytes_pos h.tail (by simp)
      cases hlast : b.tlast with
      | false => simp
      | true =>
          rw [hlast, if_pos rfl] at hbytes
          have hne : b.packetSize ≠ b.length.setWidth 32 := by
            intro e
            have := congrArg BitVec.toNat e
            rw [hsize, hlen] at this
            omega
          simp [hne]

/-- The first beat of a request goes to the single-packet queue if it is the only one, and to the
    first queue otherwise. -/
theorem route_rest (hz : z.val = 0) (hc : Calm z s) (hq : QueueIdle z s) (hs : SingleIdle s)
    (hp : r.connid ≠ BitVec.allOnes 16) (hr : r.Rest (b :: us))
    (hbytes : packetBytes (b :: us) = r.size.toNat) (hhead : b.isHeader = true) :
    s.route b = if us.isEmpty then .single else .alloc z := by
  have hb : b.connid ≠ QMeta.free.connid := by
    rw [(hr.on b (by simp)).connid]
    exact hp
  have hfree : ∀ k, (s.inp.queue k).qmeta = QMeta.free := fun k => by
    by_cases hk : k = z
    · rw [hk]
      exact hq.qmeta
    · exact hc.others.qmeta k hk
  have hmatch : firstFin (s.matchesQueue b) = none := by
    refine firstFin_eq_none fun k => ?_
    rw [Sched.matchesQueue, hfree k, decide_eq_false hb, Bool.false_and]
  have hfits : s.fitsSingle b = us.isEmpty := by
    have hroom : s.fifoSingle.tready = true := by
      rw [Fifo.tready_iff, hs.items]
      exact Nat.lt_of_le_of_lt (Nat.zero_le _) FifoKind.deep
    rw [← fits_last hr hbytes, Sched.fitsSingle, hhead, hc.metaSingle, hroom]
    simp
  have halloc : firstFin (s.canAlloc b) = some z :=
    firstFin_zero hz (by simp [Sched.canAlloc, hhead, hfree])
  rw [Sched.route, hc.metaSingle, decide_eq_false hb, Bool.false_and, hmatch, hfits, halloc]
  rfl

/-- The next beat of a request goes to the queue the request fills. -/
theorem route_gather (hc : Calm z s) (hq : Gathers r z s us bs) (hp : r.connid ≠ BitVec.allOnes 16)
    (hb : b.connid = r.connid) (hroom : (s.fifo z).tready = true) :
    s.route b = .matchQueue z := by
  have hfree : b.connid ≠ QMeta.free.connid := by
    rw [hb]
    exact hp
  have hz : s.matchesQueue b z = true := by
    simp [Sched.matchesQueue, hq.qmeta, hb, hroom]
  obtain ⟨k, hk⟩ := firstFin_isSome hz
  have hkz : k = z := by
    by_contra hne
    have := firstFin_some hk
    rw [Sched.matchesQueue, hc.others.qmeta k hne, decide_eq_false hfree] at this
    cases this
  rw [Sched.route, hc.metaSingle, decide_eq_false hfree, Bool.false_and, hk, hkz]
  rfl

end Input

/-! ## 5. One edge -/

section Step

variable {s : Sched n τ} {z : Fin n} {r : Label} {b : RxBeat τ} {us bs : List (RxBeat τ)}
  {rx : Option (RxBeat τ)} {t : Bool}

/-- **The edge brings the request on**: what is forwarded and what is left is what there was, and
    an edge is counted once nothing is left to accept. -/
def Advances (r : Label) (z : Fin n) (s s' : Sched n τ) (us bs : List (RxBeat τ)) (m : Nat)
    (us' : List (RxBeat τ)) : Prop :=
  Calm z s' ∧ ∃ bs' m', Phase r z s' us' bs' m' ∧
    s.forwarded.toList ++ r.beats (bs' ++ us') = r.beats (bs ++ us) ∧
    m' ≤ m ∧ (us = [] → m' ≤ m - 1)

/-- Nothing is forwarded, the beats move from one place to the next. -/
theorem Advances.hold {s' : Sched n τ} {us' bs' : List (RxBeat τ)} {m m' : Nat} (hc : Calm z s')
    (hfw : s.forwarded = none) (hph : Phase r z s' us' bs' m') (happ : bs' ++ us' = bs ++ us)
    (hm : m' ≤ m) (hm' : us = [] → m' ≤ m - 1) : Advances r z s s' us bs m us' :=
  ⟨hc, bs', m', hph, by rw [hfw, happ]; rfl, hm, hm'⟩

theorem hasCredit_equal (h : (s.inp.queue z).credits = 0) : s.hasCredit z = false := by
  rw [Sched.hasCredit, h]
  exact decide_eq_false (Nat.not_lt_zero _)

section Rest

variable (hc : Calm z s) (hq : QueueIdle z s) (hs : SingleIdle s)
include hc hq hs

theorem forwarded_rest : s.forwarded = none :=
  forwarded_idle hc.others (fun _ => StreamFifo.head?_of_empty hs.items)
    fun _ => StreamFifo.head?_of_empty hq.items

theorem edge_rest_none (hus : us = [] ∨ (packetBytes us = r.size.toNat ∧
    ∀ b ∈ us.head?, b.isHeader = true)) :
    Advances r z s (s.edge none t) us [] (if us = [] then 0 else us.length + 3 + FifoKind.latency) us := by
  have hin := inEdge_none hc
  refine .hold (calm_idle hc t) (forwarded_rest hc hq hs) (.rest us ?_ ?_ hus) rfl
    (Nat.le_refl _) (fun e => by rw [if_pos e])
  · exact queueIdle_edge hq (by rw [hin]; rfl)
      (outEdge_unread hc.others (single_invalid hs.items) (Or.inr hq.items)).1 t
  · exact singleIdle_edge hs (by rw [hin]; rfl) t

/-- A request of one beat. -/
theorem edge_rest_single (hroute : s.route b = .single) (hon : r.On b) (hlast : b.tlast = true) :
    Advances r z s (s.edge (some b) t) [b] []
      (if [b] = [] then 0 else [b].length + 3 + FifoKind.latency) [] := by
  have hin : s.inEdge (some b) = s.take b := inEdge_some hc
  have hq' : QueueIdle z (s.edge (some b) t) := by
    refine queueIdle_edge hq ?_ (outEdge_unread hc.others (single_invalid hs.items) (Or.inr hq.items)).1 t
    rw [hin, ← cleared_passed hq.tvalid, Sched.take, hroute]
  have hstrobe : (s.edge (some b) t).inp.strobe .single = some (r.beat true b) := by
    rw [edge_inp, hin, Sched.take, hroute]
    simp [InRegs.strobe, Label.beat, hon.dstPort, hon.workload, hon.connid, hlast, RxBeat.reqSize,
      hon.size]
  have hitems : (s.edge (some b) t).fifoSingle.items = [] := by
    rw [edge_fifoSingle, strobe_single_none hs.tvalid]
    exact StreamFifo.edge_items_empty hs.items _
  exact .hold (calm_take hc (Or.inl (by rw [hroute]; rfl)) t) (forwarded_rest hc hq hs)
    (.strobed b hq' hitems hstrobe) rfl (by simp) (fun e => by cases e)

/-- The first beat of a longer request. -/
theorem edge_rest_alloc (hroute : s.route b = .alloc z) (hr : r.Rest (b :: us)) (hus : us ≠ [])
    (hbytes : packetBytes (b :: us) = r.size.toNat) :
    Advances r z s (s.edge (some b) t) (b :: us) []
      (if b :: us = [] then 0 else (b :: us).length + 3 + FifoKind.latency) us := by
  have hin : s.inEdge (some b) = s.take b := inEdge_some hc
  have hon := hr.on b (by simp)
  have hqueue : (s.inEdge (some b)).queue z = (s.cleared z).allocate b := by
    rw [hin, Sched.take, hroute]
    exact Function.update_self ..
  obtain ⟨hcomp, hcount⟩ := completes_last
    (q := { s.cleared z with qmeta := ⟨b.dstPort, b.workload, b.connid⟩, counter := b.packetSize })
    hr hon.size (hbytes ▸ Nat.zero_add _ : (0 : BitVec 32).toNat + _ = _)
  have hfalse : us.isEmpty = false := by simpa using hus
  rw [QueueRegs.allocate, count_eq, hcomp, hfalse, if_neg Bool.noConfusion] at hqueue
  have hsingle : (s.inEdge (some b)).tvalidSingle = false := by
    rw [hin, Sched.take, hroute]
    exact hs.tvalid
  have hitems : ((s.edge (some b) t).fifo z).items = [] := by
    rw [edge_fifo, strobe_queue_none hq.tvalid]
    exact StreamFifo.edge_items_empty hq.items _
  have hout := (outEdge_unread hc.others (single_invalid hs.items) (Or.inr hq.items)).1
  refine .hold (calm_take hc (Or.inr (by rw [hroute]; rfl)) t) (forwarded_rest hc hq hs)
    (.gather us [b] hus (by simp) ⟨?_, ?_, ?_, ?_, ?_, fun _ => hitems, ?_⟩
      (singleIdle_edge hs hsingle t)) rfl (by simp) (fun e => by cases e)
  · rw [edge_inp, hqueue, hon.dstPort, hon.workload, hon.connid]
  · rw [edge_inp, hqueue]
    exact hon.size
  · rw [edge_inp, hqueue]
    exact hcount
  · rw [edge_inp, hqueue]
    exact if_pos hq.credits
  · rw [edge_out, hout]
    exact if_pos hq.credits
  · rw [hitems]
    rw [edge_inp, InRegs.strobe, hqueue]
    simp [Label.beat, hon.dstPort, hon.workload, hon.connid, RxBeat.reqSize, hon.size]

end Rest

section Gather

variable (hq : Gathers r z s us bs)
include hq

/-- The queue's FIFO has every beat accepted before this edge after it. -/
theorem items_gather (hlen : bs.length ≤ fifoDepth) (rx : Option (RxBeat τ)) (t : Bool) :
    ((s.edge rx t).fifo z).items = bs.map (r.beat false) := by
  rw [← hq.held]
  refine StreamFifo.edge_items_fit ?_ fun h => hq.unread (Bool.and_eq_true_iff.mp h).1
  rw [← List.length_append, hq.held, List.length_map]
  exact hlen

theorem cleared_gather : (s.cleared z).credits = 0 := by
  rw [cleared_credits, hq.credits, ite_self]

variable (hc : Calm z s) (hs : SingleIdle s)
include hc hs

theorem forwarded_gather : s.forwarded = none :=
  forwarded_idle hc.others (fun _ => StreamFifo.head?_of_empty hs.items)
    fun h => StreamFifo.head?_of_empty (hq.unread (Bool.and_eq_true_iff.mp h).1)

theorem out_gather : s.outEdge.deduct z = 0 ∧ s.outEdge.sel z = false := by
  have hno : s.hasCredit z = false := hasCredit_equal hq.credits
  obtain ⟨hd, -, hsel⟩ := outEdge_unread hc.others (single_invalid hs.items) (Or.inl hno)
  refine ⟨?_, hsel hno⟩
  rw [hd, Sched.deducted, hq.deduct, ite_self]

theorem edge_gather_none (hus : us ≠ []) (hbs : bs ≠ []) (hlen : bs.length ≤ fifoDepth) :
    Advances r z s (s.edge none t) us bs ((bs ++ us).length + 3 + FifoKind.latency) us := by
  have hin := inEdge_none hc
  obtain ⟨hd, hsel⟩ := out_gather hq hc hs
  refine .hold (calm_idle hc t) (forwarded_gather hq hc hs)
    (.gather us bs hus hbs ⟨?_, ?_, ?_, ?_, hd, fun h => ?_, ?_⟩
      (singleIdle_edge hs (by rw [hin]; rfl) t)) rfl (Nat.le_refl _) (fun e => absurd e hus)
  · rw [edge_inp, hin]
    exact hq.qmeta
  · rw [edge_inp, hin]
    exact hq.counter
  · rw [edge_inp, hin]
    exact hq.bytes
  · rw [edge_inp, hin]
    exact cleared_gather hq
  · exact absurd (hsel.symm.trans h) Bool.noConfusion
  · rw [edge_inp, items_gather hq hlen, hin, strobe_idle]
    exact List.append_nil _

end Gather

/-- One more beat of a longer request, its last or not. -/
theorem edge_gather_some (hc : Calm z s) (hq : Gathers r z s (b :: us) bs) (hs : SingleIdle s)
    (hp : r.connid ≠ BitVec.allOnes 16) (hr : r.Rest (b :: us)) (hbs : bs ≠ [])
    (hlen : (bs ++ b :: us).length ≤ fifoDepth) :
    Advances r z s (s.edge (some b) t) (b :: us) bs ((bs ++ b :: us).length + 3 + FifoKind.latency) us := by
  rw [List.length_append, List.length_cons] at hlen
  have hon := hr.on b (by simp)
  have hroom : (s.fifo z).tready = true := by
    have := congrArg List.length hq.held
    rw [List.length_append, List.length_map] at this
    rw [Fifo.tready_iff]
    omega
  have hroute := route_gather hc hq hp hon.connid hroom
  have hin : s.inEdge (some b) = s.take b := inEdge_some hc
  have hqueue : (s.inEdge (some b)).queue z = (s.cleared z).extend b := by
    rw [hin, Sched.take, hroute]
    exact Function.update_self ..
  obtain ⟨hcomp, hcount⟩ := completes_last (q := s.cleared z) hr hq.counter hq.bytes
  rw [QueueRegs.extend, count_eq, cleared_counterInst, hcomp, cleared_qmeta, hq.qmeta,
    cleared_counter, hq.counter] at hqueue
  have hs' : SingleIdle (s.edge (some b) t) := by
    refine singleIdle_edge hs ?_ t
    rw [hin, Sched.take, hroute]
    exact hs.tvalid
  obtain ⟨hd, hsel⟩ := out_gather hq hc hs
  have hitems := items_gather hq (by omega) (some b) t
  have hcalm := calm_take hc (Or.inr (by rw [hroute]; rfl)) t
  have happ : (bs ++ [b]) ++ us = bs ++ b :: us := by simp
  cases us with
  | nil =>
      rw [show ([] : List (RxBeat τ)).isEmpty = true from rfl, if_pos rfl] at hqueue
      have hlast : b.tlast = true := hr.last b rfl
      refine .hold hcalm (forwarded_gather hq hc hs)
        (.full (bs ++ [b]) ?_ ⟨?_, ?_, hd⟩ hs' hsel ?_) happ (by simp) (fun e => by cases e)
      · have := List.length_pos_of_ne_nil hbs
        simp
        omega
      · rw [edge_inp, hqueue]
      · rw [edge_inp, hqueue]
        show (s.cleared z).credits + 1 = 1
        rw [cleared_gather hq]
        rfl
      · rw [edge_inp, hitems, InRegs.strobe, hqueue, beats_append r bs (by simp)]
        simp [Label.beats, Label.beat, hon.connid, hlast]
  | cons b' us =>
      rw [show (b' :: us).isEmpty = false from rfl, if_neg Bool.noConfusion] at hqueue
      refine .hold hcalm (forwarded_gather hq hc hs)
        (.gather (b' :: us) (bs ++ [b]) (by simp) (by simp) ⟨?_, ?_, ?_, ?_, hd, fun h => ?_, ?_⟩ hs')
        happ (by simp) (fun e => by cases e)
      · rw [edge_inp, hqueue]
      · rw [edge_inp, hqueue]
      · rw [edge_inp, hqueue]
        exact hcount
      · rw [edge_inp, hqueue]
        exact cleared_gather hq
      · exact absurd (hsel.symm.trans h) Bool.noConfusion
      · rw [edge_inp, hitems, InRegs.strobe, hqueue]
        simp [Label.beat, hon.connid]

/-- What an edge that accepts nothing leaves of a queue that has its request whole. -/
theorem released_idle (hc : Calm z s) (hq : Released z s) (t : Bool) :
    ((s.edge none t).inp.queue z).qmeta = QMeta.free ∧
    ((s.edge none t).inp.queue z).credits = 1 ∧
    ((s.edge none t).inp.queue z).tvalid = false := by
  rw [edge_inp, inEdge_none hc]
  exact ⟨hq.qmeta, (released_credit hq).2.2, rfl⟩

theorem singleIdle_idle (hc : Calm z s) (hs : SingleIdle s) (t : Bool) :
    SingleIdle (s.edge none t) := by
  refine singleIdle_edge hs ?_ t
  rw [inEdge_none hc]
  rfl

/-- The whole request is in the queue, and the queue is selected. -/
theorem edge_full (hc : Calm z s) (hq : Released z s) (hs : SingleIdle s) (hsel : s.out.sel z = false)
    (held : (s.fifo z).items ++ (s.inp.strobe (.queue z)).toList = r.beats bs) (hbs : 2 ≤ bs.length)
    (hlen : bs.length ≤ fifoDepth) :
    Advances r z s (s.edge none t) [] bs (bs.length + 2 + FifoKind.latency) [] := by
  have hpop : s.popReady (.queue z) = false := by
    rw [Sched.popReady, hsel]
    rfl
  have hno : ¬ s.popReady (.queue z) = true := by
    rw [hpop]
    exact Bool.false_ne_true
  obtain ⟨hd, -, hsel'⟩ := outEdge_released hc.others hs.items hq (Or.inl hsel)
  obtain ⟨hqm, hcr, htv⟩ := released_idle hc hq t
  have hitems : ((s.edge none t).fifo z).items = r.beats bs := by
    rw [← held]
    refine StreamFifo.edge_items_fit ?_ fun h => absurd h hno
    rw [← List.length_append, held, beats_length]
    exact hlen
  have hsettling := ((s.edge none t).fifo z).settling_le
  have hne : bs ≠ [] := by
    intro e
    rw [e] at hbs
    cases hbs
  refine .hold (calm_idle hc t) (forwarded_idle hc.others (fun _ => StreamFifo.head?_of_empty hs.items)
    fun h => absurd h hno)
    (.read bs hne ⟨hqm, hcr, hd⟩ (singleIdle_idle hc hs t) hsel' htv hitems (Or.inr hbs)) rfl ?_
    fun _ => ?_
  · split <;> omega
  · split <;> omega

section Read

variable (hc : Calm z s) (hq : Released z s) (hs : SingleIdle s) (hn : n < 256)
  (hsel : s.out.sel z = true) (htv : (s.inp.queue z).tvalid = false)
  (held : (s.fifo z).items = r.beats (b :: bs))
include hc hq hs htv held

/-- The queue shows nothing yet, and waits. -/
theorem edge_read_wait (hhead : (s.fifo z).head? = none)
    (hnum : s.out.number.toNat = z.val ∨ 2 ≤ (b :: bs).length) :
    Advances r z s (s.edge none t) [] (b :: bs)
      ((b :: bs).length + (if s.out.number.toNat = z.val then 0 else 1) + (s.fifo z).settling) [] := by
  have hv : (s.fifo z).tvalid = false := by
    rw [StreamFifo.tvalid_eq, hhead]
    rfl
  have hpos : (s.fifo z).settling ≠ 0 := fun e => by
    rw [StreamFifo.head?_settled e, held] at hhead
    cases hhead
  obtain ⟨hd, hnumber, hsel'⟩ := outEdge_released hc.others hs.items hq (Or.inr hv)
  obtain ⟨hqm, hcr, htv'⟩ := released_idle hc hq t
  have hfifo : (s.edge none t).fifo z = (s.fifo z).edge none (s.popReady (.queue z)) := by
    rw [edge_fifo, strobe_queue_none htv]
  have hitems : ((s.edge none t).fifo z).items = r.beats (b :: bs) := by
    have hedge := (s.fifo z).edge_items none (s.popReady (.queue z))
    rw [StreamFifo.popped_eq, hhead, ite_self, Fifo.written_none] at hedge
    rw [hfifo, ← held]
    simpa using hedge
  have hsettling := (s.fifo z).settling_edge (s.popReady (.queue z))
  rw [← hfifo] at hsettling
  refine .hold (calm_idle hc t) (forwarded_idle hc.others (fun _ => StreamFifo.head?_of_empty hs.items)
    fun _ => hhead)
    (.read (b :: bs) (List.cons_ne_nil _ _) ⟨hqm, hcr, hd⟩ (singleIdle_idle hc hs t) hsel' htv' hitems
      (by rw [edge_out, hnumber]; exact hnum)) rfl ?_ fun _ => ?_
  all_goals
    rw [edge_out, hnumber, hsettling]
    omega

variable (hhead : (s.fifo z).head? = some (r.beat bs.isEmpty b))
include hn hsel hhead

omit htv held in
/-- The mux shows the selected queue next; the queue is deducted where its head ends the request,
    and stays selected otherwise. -/
theorem out_read (t : Bool) : (s.edge none t).out.number.toNat = z.val ∧
    ((bs.isEmpty = true ∧ s.outEdge.deduct z = 1) ∨
      (bs.isEmpty = false ∧ s.outEdge.deduct z = 0 ∧ s.outEdge.sel z = true)) := by
  have hends : s.headEnds z = bs.isEmpty := by
    rw [Sched.headEnds, hhead]
    rfl
  obtain ⟨hnum, hbr⟩ := outEdge_reading hc.others hs.items hq hsel
    (by rw [StreamFifo.tvalid_eq, hhead]; rfl)
  rw [hends] at hbr
  refine ⟨?_, hbr⟩
  rw [edge_out, hnum, BitVec.toNat_ofNat]
  exact Nat.mod_eq_of_lt (by omega)

/-- The queue is shown, and its head is forwarded. -/
theorem edge_read_shown (hz : s.out.number.toNat = z.val) :
    Advances r z s (s.edge none t) [] (b :: bs) ((b :: bs).length + 0 + (s.fifo z).settling) [] := by
  have hpop : s.popReady (.queue z) = true := by
    rw [Sched.popReady, hsel, decide_eq_true hz]
    rfl
  have hfw : s.forwarded = some (r.beat bs.isEmpty b) := by
    rw [forwarded_of_popReady hpop]
    exact hhead
  have hfifo : (s.edge none t).fifo z = (s.fifo z).edge none true := by
    rw [edge_fifo, strobe_queue_none htv, hpop]
  have hitems : ((s.edge none t).fifo z).items = r.beats bs := by
    have hedge := (s.fifo z).edge_items none true
    rw [StreamFifo.popped_true, hhead, Fifo.written_none, held] at hedge
    rw [hfifo]
    simpa [Label.beats] using hedge
  have hsettling := (s.fifo z).settling_edge true
  rw [← hfifo] at hsettling
  obtain ⟨hnumber, hbr⟩ := out_read hc hq hs hn hsel hhead t
  obtain ⟨hqm, hcr, htv'⟩ := released_idle hc hq t
  have hs' := singleIdle_idle hc hs t
  cases bs with
  | nil =>
      obtain ⟨-, hd⟩ := hbr.resolve_right fun h => by cases h.1
      exact ⟨calm_idle hc t, [], _, .rest [] ⟨hqm, htv', hitems, hcr.trans hd.symm⟩ hs' (Or.inl rfl),
        by rw [hfw]; rfl, by simp, by simp⟩
  | cons b' bs =>
      obtain ⟨-, hd, hsel'⟩ := hbr.resolve_left fun h => by cases h.1
      refine ⟨calm_idle hc t, b' :: bs, _, .read (b' :: bs) (by simp) ⟨hqm, hcr, hd⟩ hs' hsel' htv'
        hitems (Or.inl hnumber), ?_, ?_, ?_⟩
      · rw [hfw, List.append_nil, List.append_nil]
        rfl
      · rw [if_pos hnumber, hsettling]
        simp only [List.length_cons]
        omega
      · rw [if_pos hnumber, hsettling]
        simp only [List.length_cons]
        omega

/-- The mux turns to the queue; the head, which stays, is not a last beat. -/
theorem edge_read_turn (hz : s.out.number.toNat ≠ z.val) (hlong : 2 ≤ (b :: bs).length) :
    Advances r z s (s.edge none t) [] (b :: bs) ((b :: bs).length + 1 + (s.fifo z).settling) [] := by
  have hpop : s.popReady (.queue z) = false := by
    rw [Sched.popReady, hsel, decide_eq_false hz]
    rfl
  have hfifo : (s.edge none t).fifo z = (s.fifo z).edge none false := by
    rw [edge_fifo, strobe_queue_none htv, hpop]
  have hitems : ((s.edge none t).fifo z).items = r.beats (b :: bs) := by
    rw [hfifo, StreamFifo.edge_items_none, held]
  have hsettling := (s.fifo z).settling_edge false
  rw [← hfifo] at hsettling
  obtain ⟨hnumber, hbr⟩ := out_read hc hq hs hn hsel hhead t
  obtain ⟨hqm, hcr, htv'⟩ := released_idle hc hq t
  have hne : bs ≠ [] := by
    rintro rfl
    simp at hlong
  obtain ⟨-, hd, hsel'⟩ := hbr.resolve_left fun h => by simp [hne] at h
  refine .hold (calm_idle hc t) (forwarded_idle hc.others (fun _ => StreamFifo.head?_of_empty hs.items)
    fun h => ?_)
    (.read (b :: bs) (by simp) ⟨hqm, hcr, hd⟩ (singleIdle_idle hc hs t) hsel' htv' hitems
      (Or.inl hnumber)) rfl ?_ fun _ => ?_
  · rw [hpop] at h
    cases h
  · rw [if_pos hnumber, hsettling]
    omega
  · rw [if_pos hnumber, hsettling]
    omega

omit hhead in
/-- One beat is read from the selected queue, or the mux turns to it, or the queue shows nothing yet. -/
theorem edge_read (hnum : s.out.number.toNat = z.val ∨ 2 ≤ (b :: bs).length) :
    Advances r z s (s.edge none t) [] (b :: bs)
      ((b :: bs).length + (if s.out.number.toNat = z.val then 0 else 1) + (s.fifo z).settling) [] := by
  cases hhead : (s.fifo z).head? with
  | none => exact edge_read_wait hc hq hs htv held hhead hnum
  | some x =>
      have hx := StreamFifo.head_of_head? hhead
      rw [held] at hx
      obtain rfl : r.beat bs.isEmpty b = x := Option.some.inj hx
      by_cases hz : s.out.number.toNat = z.val
      · rw [if_pos hz]
        exact edge_read_shown hc hq hs hn hsel htv held hhead hz
      · rw [if_neg hz]
        exact edge_read_turn hc hq hs hn hsel htv held hhead hz (hnum.resolve_left hz)

end Read

/-- A one-beat request is written to the single-packet FIFO. -/
theorem edge_strobed (hc : Calm z s) (hq : QueueIdle z s) (hs : s.fifoSingle.items = [])
    (hstrobe : s.inp.strobe .single = some (r.beat true b)) :
    Advances r z s (s.edge none t) [] [b] (3 + FifoKind.latency) [] := by
  have hin := inEdge_none hc
  have hinvalid := single_invalid hs
  have hq' : QueueIdle z (s.edge none t) :=
    queueIdle_edge hq (by rw [hin]; rfl) (outEdge_unread hc.others hinvalid (Or.inr hq.items)).1 t
  have hroom : s.fifoSingle.items.length + [r.beat true b].length ≤ fifoDepth := by
    rw [hs]
    exact Nat.le_of_lt (Nat.lt_of_le_of_lt (Nat.le_add_left 1 _) FifoKind.deep)
  have hitems : (s.edge none t).fifoSingle.items = [r.beat true b] := by
    rw [edge_fifoSingle, hstrobe, StreamFifo.edge_items_fit hroom fun _ => hs, hs]
    rfl
  have hsel : (s.edge none t).out.selSingle = false := outEdge_selSingle hinvalid
  have hsettling := (s.edge none t).fifoSingle.settling_le
  refine .hold (calm_idle hc t) (forwarded_idle hc.others (fun _ => StreamFifo.head?_of_empty hs)
    fun _ => StreamFifo.head?_of_empty hq.items)
    (.stored b hq' ?_ hitems ?_) rfl ?_ fun _ => ?_
  · rw [edge_inp, hin]
    rfl
  · rw [hsel]
    exact fun e => absurd e Bool.false_ne_true
  · split <;> omega
  · split <;> omega

/-- A one-beat request is read, or the mux turns to the single-packet FIFO, or the FIFO shows nothing
    yet. -/
theorem edge_stored (hc : Calm z s) (hq : QueueIdle z s) (hn : n < 256)
    (hs : s.inp.tvalidSingle = false) (held : s.fifoSingle.items = [r.beat true b])
    (hshown : s.out.selSingle = true → s.fifoSingle.tvalid = true) :
    Advances r z s (s.edge none t) [] [b]
      ((if s.popReady .single = true then 1 else 2) + s.fifoSingle.settling) [] := by
  have hin := inEdge_none hc
  have hqueue : (s.inEdge none).queue z = s.passed z := by
    rw [hin]
    rfl
  have hs' : (s.edge none t).inp.tvalidSingle = false := by
    rw [edge_inp, hin]
    rfl
  have hfifo : (s.edge none t).fifoSingle = s.fifoSingle.edge none (s.popReady .single) := by
    rw [edge_fifoSingle, strobe_single_none hs]
  have hedge := s.fifoSingle.edge_items none (s.popReady .single)
  rw [Fifo.written_none, ← hfifo, held, StreamFifo.popped_eq] at hedge
  have hsettling := s.fifoSingle.settling_edge (s.popReady .single)
  rw [← hfifo] at hsettling
  have hcalm := calm_idle hc t
  have hnot : s.popReady (.queue z) = true → (s.fifo z).head? = none := fun _ =>
    StreamFifo.head?_of_empty hq.items
  cases hhead : s.fifoSingle.head? with
  | none =>
      have hv : s.fifoSingle.tvalid = false := by
        rw [StreamFifo.tvalid_eq, hhead]
        rfl
      have hpos : s.fifoSingle.settling ≠ 0 := fun e => by
        rw [StreamFifo.head?_settled e, held] at hhead
        cases hhead
      have hpop : s.popReady .single = false := by
        rw [Sched.popReady, Bool.eq_false_iff.mpr fun e => Bool.false_ne_true (hv.symm.trans (hshown e))]
        rfl
      have hsel : (s.edge none t).out.selSingle = false := outEdge_selSingle hv
      have hpop' : (s.edge none t).popReady .single = false := by
        rw [Sched.popReady, hsel]
        rfl
      rw [hhead, ite_self] at hedge
      refine .hold hcalm (forwarded_idle hc.others (fun _ => hhead) hnot)
        (.stored b (queueIdle_edge hq hqueue (outEdge_unread hc.others hv (Or.inr hq.items)).1 t) hs'
          (by simpa using hedge) ?_) rfl ?_ fun _ => ?_
      · rw [hsel]
        exact fun e => absurd e Bool.false_ne_true
      all_goals
        rw [hpop', hpop, hsettling]
        omega
  | some x =>
      have hx := StreamFifo.head_of_head? hhead
      rw [held] at hx
      obtain rfl : r.beat true b = x := Option.some.inj hx
      have hv : s.fifoSingle.tvalid = true := by
        rw [StreamFifo.tvalid_eq, hhead]
        rfl
      have hout := outEdge_single (s := s) hv
      have hq' : QueueIdle z (s.edge none t) := queueIdle_edge hq hqueue (by rw [hout]) t
      cases hpop : s.popReady .single with
      | true =>
          rw [hpop, if_pos rfl, hhead] at hedge
          have hfw : s.forwarded = some (r.beat true b) := by
            rw [forwarded_of_popReady hpop]
            exact hhead
          exact ⟨hcalm, [], _, .rest [] hq' ⟨hs', by simpa using hedge⟩ (Or.inl rfl), by rw [hfw]; rfl,
            by simp, by simp⟩
      | false =>
          rw [hpop, if_neg Bool.false_ne_true] at hedge
          have hpop' : (s.edge none t).popReady .single = true := by
            show (s.outEdge.selSingle && decide (s.outEdge.number.toNat = n)) = true
            rw [hout]
            simp only [Bool.true_and, decide_eq_true_eq, BitVec.toNat_ofNat]
            exact Nat.mod_eq_of_lt hn
          have hstays : (s.edge none t).fifoSingle.head? = some (r.beat true b) := by
            rw [hfifo, hpop]
            exact StreamFifo.head?_stays hhead none
          refine .hold hcalm (forwarded_idle hc.others (fun h => ?_) hnot)
            (.stored b hq' hs' (by simpa using hedge) fun _ => ?_) rfl ?_ fun _ => ?_
          · rw [hpop] at h
            cases h
          · rw [StreamFifo.tvalid_eq, hstays]
            rfl
          all_goals
            rw [hpop', hsettling, if_pos rfl, if_neg Bool.false_ne_true]
            omega

/-- **Every edge keeps the order of the beats and brings the request on**, whether or not the next
    beat is offered. -/
theorem phase_edge {m : Nat} {us' : List (RxBeat τ)} (hz : z.val = 0) (hn : n < 256)
    (hp : r.connid ≠ BitVec.allOnes 16) (h : Phase r z s us bs m) (hc : Calm z s) (hr : r.Rest us)
    (hlen : (bs ++ us).length ≤ fifoDepth)
    (hrx : (rx = none ∧ us' = us) ∨ ∃ b, rx = some b ∧ us = b :: us') (t : Bool) :
    Advances r z s (s.edge rx t) us bs m us' := by
  rcases hrx with ⟨rfl, rfl⟩ | ⟨b, rfl, rfl⟩
  · cases h with
    | rest _ hq hs hus => exact edge_rest_none hc hq hs hus
    | gather _ _ hus hbs hq hs =>
        refine edge_gather_none hq hc hs hus hbs ?_
        rw [List.length_append] at hlen
        omega
    | full _ hbs hq hs hsel held => exact edge_full hc hq hs hsel held hbs (by simpa using hlen)
    | read _ hbs hq hs hsel htv held hnum =>
        obtain ⟨b, bs, rfl⟩ := List.exists_cons_of_ne_nil hbs
        exact edge_read hc hq hs hn hsel htv held hnum
    | strobed _ hq hs hstrobe => exact edge_strobed hc hq hs hstrobe
    | stored _ hq hs held hshown => exact edge_stored hc hq hn hs held hshown
  · cases h with
    | rest _ hq hs hus =>
        obtain ⟨hbytes, hhead⟩ := hus.resolve_left (List.cons_ne_nil _ _)
        have hroute := route_rest hz hc hq hs hp hr hbytes (hhead b rfl)
        cases us' with
        | nil => exact edge_rest_single hc hq hs hroute (hr.on b (by simp)) (hr.last b rfl)
        | cons b' us => exact edge_rest_alloc hc hq hs hroute hr (by simp) hbytes
    | gather _ _ _ hbs hq hs => exact edge_gather_some hc hq hs hp hr hbs hlen

end Step

end Frac.Reassembly
