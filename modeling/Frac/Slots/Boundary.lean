/-
  File:      Frac/Slots/Boundary.lean
  Subject:   The accelerator slot boundary of `pkt_logic.v`: what a slot module is seen from outside,
             and dispatcher, scheduler and slot as one device.

  The floating-point cores of a module are not part of it: what they drive at an edge is an input,
  `Cores`. A decoupler that is open passes everything on and is left out, like the sideband signals
  that the boundary ties to zero.

  * `SlotModule` -- a slot module; `Device` -- dispatcher and scheduler with a slot at `tx`;
  * `Service` -- what a module does with one request, as far as the module alone decides it: an
    invariant and a rank;
  * `device_serves` -- **a module with a service serves the request through the device**.
-/
import Frac.Reassembly.Segmentation

namespace Frac.Slots

open Clocked Reassembly

variable {n : Nat}

/-! ## 1. Slot modules -/

/-- One beat on the slot boundary, by field: `{bytes, session}`, the in-band `tlast`, 64 bytes. -/
structure SlotBeat where
  bytes : BitVec 16
  session : BitVec 16
  tlast : Bool
  payload : BitVec 512
  deriving DecidableEq

/-- `{app_rx_meta, app_rx_req_last, app_rx_payload}`. -/
def SlotBeat.ofQueue (b : QBeat Unit) : SlotBeat := ⟨b.size, b.connid, b.requestEnd, b.payload⟩

/-- **A slot module.** An edge gets the beat offered on `s_axis`, `m_axis_tready` and what the cores
    drive; `willing` says that nothing the module waits for is held back at the edge. -/
structure SlotModule where
  State : Type
  Cores : Type
  Idle : State → Prop
  tready : State → Bool → Bool
  edge : State → Option SlotBeat → Bool → Cores → State
  sent : State → Option SlotBeat → Bool → Option SlotBeat
  willing : State → Bool → Cores → Bool

/-- The beat the module takes at an edge. -/
def SlotModule.taken (M : SlotModule) (s : M.State) (offered : Option SlotBeat) (mTready : Bool) :
    Option SlotBeat :=
  if M.tready s mTready then offered else none

/-- **One frame of `length` beats**: `tlast` on its last beat only, and with it the length in bytes
    and the session. -/
def IsFrame (length : Nat) (session : BitVec 16) (bs : List SlotBeat) : Prop :=
  bs.length = length ∧ ∃ body last, bs = body ++ [last] ∧ (∀ b ∈ body, b.tlast = false) ∧
    last.tlast = true ∧ last.bytes.toNat = 64 * length ∧ last.session = session

/-- Response beats before the last. -/
structure Partial (m : Nat) (out : List SlotBeat) : Prop where
  length : out.length = m
  body : ∀ b ∈ out, b.tlast = false

theorem Partial.nil : Partial 0 [] := ⟨rfl, by simp⟩

theorem Partial.snoc {m : Nat} {out : List SlotBeat} (h : Partial m out) {b : SlotBeat}
    (hb : b.tlast = false) : Partial (m + 1) (out ++ [b]) := by
  refine ⟨by rw [List.length_append, h.length, List.length_singleton], fun b' hb' => ?_⟩
  rcases List.mem_append.mp hb' with hb' | hb'
  · exact h.body b' hb'
  · rw [List.mem_singleton.mp hb']
    exact hb

theorem Partial.frame {m : Nat} {out : List SlotBeat} (h : Partial m out) {b : SlotBeat}
    {session : BitVec 16} (hb : b.tlast = true) (hbytes : b.bytes.toNat = 64 * (m + 1))
    (hsession : b.session = session) : IsFrame (m + 1) session (out ++ [b]) :=
  ⟨by rw [List.length_append, h.length, List.length_singleton], out, b, rfl, h.body, hb, hbytes,
    hsession⟩

/-- `is_header`: the low 448 bits of the line are ones. -/
def SlotBeat.isHeader (b : SlotBeat) : Bool := b.payload.extractLsb' 0 448 == BitVec.allOnes 448

/-- **The beats of a request of one header line and `d` data lines**, as the slot gets them. -/
structure IsRequest (d : Nat) (session : BitVec 16) (bs : List SlotBeat) : Prop where
  length : bs.length = d + 1
  beat : ∀ {k b}, bs[k]? = some b →
    b.bytes.toNat = 64 * (d + 1) ∧ b.session = session ∧ b.tlast = decide (k = d)
  header : ∀ {b}, bs[0]? = some b → b.isHeader = true

/-! ## 2. The device -/

/-- Dispatcher and scheduler, the slot at `tx`, and the beats the slot has sent. -/
structure Device [FifoKind] (M : SlotModule) (n : Nat) where
  seg : SegSys n Unit
  slot : M.State
  sent : List SlotBeat

/-- One clock edge's inputs: the next line may be sent. -/
structure DeviceIn (M : SlotModule) where
  send : Bool
  reconfReady : Bool
  mTready : Bool
  cores : M.Cores

/-- What `tx` offers to the slot. -/
def offer [FifoKind] (y : SegSys n Unit) : Option SlotBeat :=
  y.front.sched.fifoOut.head?.map SlotBeat.ofQueue

section Device

variable [FifoKind] {M : SlotModule}

/-- The pins of dispatcher and scheduler. -/
def Device.segIn (d : Device M n) (i : DeviceIn M) : SegIn Unit :=
  ⟨false, none, i.send, M.tready d.slot i.mTready, i.reconfReady⟩

/-- One clock edge with `rst` low. -/
def Device.edge (d : Device M n) (i : DeviceIn M) : Device M n where
  seg := d.seg.edge (d.segIn i)
  slot := M.edge d.slot (offer d.seg) i.mTready i.cores
  sent := d.sent ++ (M.sent d.slot (offer d.seg) i.mTready).toList

/-- A request about to arrive. -/
def Device.start (y : SegSys n Unit) (s : M.State) (q : AppRequest Unit) : Device M n :=
  ⟨y.begin (some q), s, []⟩

/-- The edge gives the slot what it waits for. -/
def Device.willing (d : Device M n) (i : DeviceIn M) : Bool := M.willing d.slot i.mTready i.cores

end Device

/-! ## 3. Services -/

/-- **What an edge owes to a request** of which `j` beats are taken and that is answered by `out` so
    far: it keeps the invariant and does not raise the rank; a willing edge that offers the next beat
    lowers it. -/
structure Advance (M : SlotModule) (bs : List SlotBeat)
    (Inv : Nat → M.State → List SlotBeat → Prop) (rank : Nat → M.State → Nat) (j : Nat)
    (s : M.State) (out : List SlotBeat) (o : Option SlotBeat) (t : Bool) (c : M.Cores) : Prop where
  inv : Inv (j + (M.taken s o t).toList.length) (M.edge s o t c) (out ++ (M.sent s o t).toList)
  le : rank (j + (M.taken s o t).toList.length) (M.edge s o t c) ≤ rank j s
  lt : o = bs[j]? → M.willing s t c = true → rank j s ≠ 0 →
    rank (j + (M.taken s o t).toList.length) (M.edge s o t c) < rank j s

section Advance

variable {M : SlotModule} {bs : List SlotBeat} {Inv : Nat → M.State → List SlotBeat → Prop}
  {rank : Nat → M.State → Nat} {j : Nat} {s : M.State} {out : List SlotBeat} {o : Option SlotBeat}
  {t : Bool} {c : M.Cores}

/-- An edge that takes nothing and sends nothing. -/
theorem Advance.silent (ht : M.taken s o t = none) (hs : M.sent s o t = none)
    (hinv : Inv j (M.edge s o t c) out) (hle : rank j (M.edge s o t c) ≤ rank j s)
    (hlt : o = bs[j]? → M.willing s t c = true → rank j s ≠ 0 →
      rank j (M.edge s o t c) < rank j s) : Advance M bs Inv rank j s out o t c := by
  refine ⟨?_, ?_, ?_⟩ <;> rw [ht]
  · rw [hs, Option.toList_none, List.append_nil]
    exact hinv
  · exact hle
  · exact hlt

/-- An edge that takes the next beat and sends nothing. -/
theorem Advance.take {b : SlotBeat} (ht : M.taken s o t = some b) (hs : M.sent s o t = none)
    (hinv : Inv (j + 1) (M.edge s o t c) out) (hlt : rank (j + 1) (M.edge s o t c) < rank j s) :
    Advance M bs Inv rank j s out o t c := by
  refine ⟨?_, ?_, ?_⟩ <;> rw [ht]
  · rw [hs, Option.toList_none, List.append_nil]
    exact hinv
  · exact hlt.le
  · exact fun _ _ _ => hlt

/-- An edge that takes nothing and sends a beat. -/
theorem Advance.send {b : SlotBeat} (ht : M.taken s o t = none) (hs : M.sent s o t = some b)
    (hinv : Inv j (M.edge s o t c) (out ++ [b])) (hlt : rank j (M.edge s o t c) < rank j s) :
    Advance M bs Inv rank j s out o t c := by
  refine ⟨?_, ?_, ?_⟩ <;> rw [ht]
  · rw [hs]
    exact hinv
  · exact hlt.le
  · exact fun _ _ _ => hlt

end Advance

/-- **What a module does with the request `bs`**: `Inv j s out` holds when it has taken `j` beats and
    sent `out`; every edge advances it, and the rank is zero only at the end. -/
structure Service (M : SlotModule) (bs : List SlotBeat) (Done : List SlotBeat → Prop) where
  Inv : Nat → M.State → List SlotBeat → Prop
  rank : Nat → M.State → Nat
  bound : Nat
  start : ∀ {s}, M.Idle s → Inv 0 s [] ∧ rank 0 s ≤ bound
  edge : ∀ {j s out}, Inv j s out → ∀ o t c, (o = none ∨ o = bs[j]?) →
    Advance M bs Inv rank j s out o t c
  finish : ∀ {j s out}, Inv j s out → rank j s = 0 → Done out ∧ M.Idle s

/-- A service that does more. -/
def Service.mono {M : SlotModule} {bs : List SlotBeat} {Done Done' : List SlotBeat → Prop}
    (S : Service M bs Done) (h : ∀ out, Done out → Done' out) : Service M bs Done' where
  Inv := S.Inv
  rank := S.rank
  bound := S.bound
  start := S.start
  edge := S.edge
  finish hinv h0 := ⟨h _ (S.finish hinv h0).1, (S.finish hinv h0).2⟩

/-! ## 4. A request through the device -/

section Serve

variable [FifoKind] {M : SlotModule} {q : AppRequest Unit} {Done : List SlotBeat → Prop}

/-- The beats of a request as the slot gets them. -/
def slotBeats (q : AppRequest Unit) : List SlotBeat := q.beats.map SlotBeat.ofQueue

/-- **Where the request is**: behind the beats that were due before, `tx` has given the slot the first
    `j` beats of the request, and the slot is in the service of these. -/
structure Served (S : Service M (slotBeats q) Done) (z : Fin n) (before : List (QBeat Unit)) (j : Nat)
    (d : Device M n) : Prop where
  seg : ∃ r bs m, SegInv z r bs m d.seg
  due : d.seg.due = before ++ q.beats
  out : d.seg.out = before ++ q.beats.take j
  serve : S.Inv j d.slot d.sent

variable {S : Service M (slotBeats q) Done} {z : Fin n} {before : List (QBeat Unit)} {j : Nat}
  {d : Device M n}

/-- What is in the output FIFO comes next. -/
theorem served_next (h : Served S z before j d) :
    ∃ rest, d.seg.front.sched.fifoOut.items ++ rest = q.beats.drop j := by
  obtain ⟨r, bs, m, hinv⟩ := h.seg
  have hdue := hinv.due
  rw [h.due, h.out, Sched.leaving, List.append_assoc, List.append_cancel_left_eq,
    List.append_assoc] at hdue
  refine ⟨_, List.append_cancel_left (hdue.trans (List.take_append_drop j q.beats).symm)⟩

/-- What the output FIFO shows is the next beat. -/
theorem served_head (h : Served S z before j d) {b : QBeat Unit}
    (hb : d.seg.front.sched.fifoOut.head? = some b) : q.beats[j]? = some b := by
  obtain ⟨rest, hrest⟩ := served_next h
  rw [← List.head?_drop, ← hrest, List.head?_append, StreamFifo.head_of_head? hb]
  rfl

theorem served_offer (h : Served S z before j d) : offer d.seg = none ∨ offer d.seg = (slotBeats q)[j]? := by
  rw [offer, slotBeats]
  cases hhead : d.seg.front.sched.fifoOut.head? with
  | none => exact Or.inl rfl
  | some b =>
      refine Or.inr ?_
      rw [List.getElem?_map, served_head h hhead]

theorem served_edge (hz : z.val = 0) (hn : n < 256) (h : Served S z before j d) (i : DeviceIn M) :
    ∃ j', Served S z before j' (d.edge i) ∧ S.rank j' (d.edge i).slot ≤ S.rank j d.slot ∧
      (offer d.seg = (slotBeats q)[j]? → d.willing i = true → S.rank j d.slot ≠ 0 →
        S.rank j' (d.edge i).slot < S.rank j d.slot) := by
  obtain ⟨hserve, hle, hlt⟩ := S.edge h.serve (offer d.seg) i.mTready i.cores (served_offer h)
  obtain ⟨r, bs, m, hinv⟩ := h.seg
  obtain ⟨bs', m', hinv', -⟩ := segInv_edge hz hn hinv (d.segIn i)
  refine ⟨_, ⟨⟨_, _, _, hinv'⟩, h.due, ?_, hserve⟩, hle, hlt⟩
  show d.seg.out ++ (d.seg.front.sched.tx (M.tready d.slot i.mTready)).toList = _
  rw [h.out, List.append_assoc]
  congr 1
  unfold SlotModule.taken Sched.tx
  cases M.tready d.slot i.mTready with
  | false => exact List.append_nil _
  | true =>
      rw [StreamFifo.popped_true, offer]
      cases hhead : d.seg.front.sched.fifoOut.head? with
      | none => exact List.append_nil _
      | some b =>
          show q.beats.take j ++ [b] = q.beats.take (j + 1)
          rw [List.take_add_one, served_head h hhead]
          rfl

/-- A request whose lines are all in the output FIFO, old enough to be shown, or gone offers its next
    beat. -/
theorem settled_offer (h : Served S z before j d) (hs : Settling z (before ++ q.beats) 0 d.seg) :
    offer d.seg = (slotBeats q)[j]? := by
  obtain ⟨hdrain, hwithin, hsettled⟩ := hs
  rw [Nat.zero_sub] at hdrain hwithin
  obtain ⟨r, hinv, hahead, -⟩ := draining_zero hdrain
  have hdue := hinv.due
  rw [hahead, Sched.leaving, Delay.items_within_zero hwithin, h.due, h.out, List.append_assoc,
    List.append_cancel_left_eq] at hdue
  have hsplit : q.beats.take j ++ d.seg.front.sched.fifoOut.items =
      q.beats.take j ++ q.beats.drop j := by
    rw [List.take_append_drop]
    simpa [Label.beats] using hdue
  have hitems := List.append_cancel_left hsplit
  rw [offer, StreamFifo.head?_settled (Nat.le_zero.mp hsettled), hitems, List.head?_drop, slotBeats,
    List.getElem?_map]

theorem served_start (h0 : z.val = 0) (hn : n < 256) {y : SegSys n Unit}
    (hr : Reachable SegSys.clock SegSys.Paced (SegSys.init n Unit) y) (htodo : y.todo = [])
    (hout : y.out = y.due) {s : M.State} (hs : M.Idle s) :
    Served S z y.due 0 (Device.start y s q) := by
  obtain ⟨r, bs, m, hinv⟩ := hr.invariant (P := fun y => ∃ r bs m, SegInv z r bs m y)
    ⟨_, _, _, segInv_init _⟩ fun y i h hp => segInv_clock h0 hn h hp
  obtain ⟨m', hbegin⟩ := segInv_begin hinv q htodo hout
  refine ⟨⟨_, _, _, hbegin⟩, rfl, ?_, (S.start hs).1⟩
  show y.out = y.due ++ []
  rw [hout, List.append_nil]

/-- **A module with a service serves the request through the device**: to any idle device and slot,
    with any gaps between the lines, any readiness behind the slot and any behaviour of the cores;
    once the lines are sent, after enough edges that hold nothing back the slot has sent what it has
    to, and is idle again. -/
theorem device_serves (S : Service M (slotBeats q) Done) (h0 : 0 < n) (hn : n < 256)
    {y : SegSys n Unit} (hr : Reachable SegSys.clock SegSys.Paced (SegSys.init n Unit) y)
    (htodo : y.todo = []) (hout : y.out = y.due) {s : M.State} (hs : M.Idle s)
    (is js : List (DeviceIn M))
    (hsent : (run Device.edge (Device.start y s q) is).seg.todo = [])
    (henough : fifoDepth + 15 + 3 * FifoKind.latency + S.bound ≤
      count Device.edge Device.willing (run Device.edge (Device.start y s q) is) js) :
    Done (run Device.edge (Device.start y s q) (is ++ js)).sent ∧
      M.Idle (run Device.edge (Device.start y s q) (is ++ js)).slot := by
  have hmid : ∃ j, Served S ⟨0, h0⟩ y.due j (run Device.edge (Device.start y s q) is) ∧
      S.rank j (run Device.edge (Device.start y s q) is).slot ≤ S.bound := by
    refine run_meets (P := fun d => ∃ j, Served S ⟨0, h0⟩ y.due j d ∧ S.rank j d.slot ≤ S.bound)
      ?_ ⟨0, served_start rfl hn hr htodo hout hs, (S.start hs).2⟩ is
      (Meets.of_forall (fun _ _ => trivial) _ is)
    rintro d i ⟨j, hj, hle⟩ -
    obtain ⟨j', hj', hle', -⟩ := served_edge rfl hn hj i
    exact ⟨j', hj', hle'.trans hle⟩
  rw [run_append]
  generalize run Device.edge (Device.start y s q) is = d at hsent henough hmid
  obtain ⟨j, hj, hle⟩ := hmid
  obtain ⟨r, bs, m, hinv⟩ := hj.seg
  have hsettle := settling_start hinv hsent
  rw [hj.due] at hsettle
  have hcount : ∃ j a, Served S ⟨0, h0⟩ y.due j (run Device.edge d js) ∧
      Settling ⟨0, h0⟩ (y.due ++ q.beats) a (run Device.edge d js).seg ∧
      a + S.rank j (run Device.edge d js).slot ≤
        fifoDepth + 15 + 3 * FifoKind.latency + S.bound - count Device.edge Device.willing d js := by
    refine run_counted (P := fun m d => ∃ j a, Served S ⟨0, h0⟩ y.due j d ∧
      Settling ⟨0, h0⟩ (y.due ++ q.beats) a d.seg ∧ a + S.rank j d.slot ≤ m) ?_
      ⟨j, _, hj, hsettle, by omega⟩ js (Meets.of_forall (fun _ _ => trivial) _ js)
    rintro m d i ⟨j, a, hj, ha, hm⟩ -
    obtain ⟨j', hj', hle', hlt⟩ := served_edge rfl hn hj i
    refine ⟨j', a - 1, hj', settling_edge rfl hn ha (d.segIn i), ?_⟩
    split
    · rename_i hw
      by_cases ha0 : a = 0
      · subst ha0
        by_cases hr0 : S.rank j d.slot = 0
        · omega
        · have hdrop := hlt (settled_offer hj ha) hw hr0
          omega
      · omega
    · omega
  obtain ⟨j', a, hj', -, hzero⟩ := hcount
  exact S.finish hj'.serve (by omega)

end Serve

end Frac.Slots
