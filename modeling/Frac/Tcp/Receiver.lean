/-
  File:      Frac/Tcp/Receiver.lean
  Subject:   The receiver (`pkt_receiver.v`): notifications of the TCP stack, the read requests they
             lead to, and the beats of the answers paired with the notifications again.

  The FIFOs are of one fixed latency, any one. `prev_rx_data_tvalid` and `payload_rx_tvalid` drive
  nothing and are left out.

  * `Receiver.clock` -- one clock edge; `rejects` -- the filter;
  * `Segment` -- a notification and the data that the stack has for it; `Inlet` -- the receiver and a
    stack that answers the read requests in order;
  * `Received` -- **which packet the receiver is in**; `received_step` -- an edge keeps it;
  * `packets_keep_metadata` -- **every packet leaves with its own metadata**.
-/
import Frac.Lib.Clocked
import Frac.Lib.Latency

namespace Frac.Tcp

open Clocked

/-! ## 1. Registers and pins -/

variable {latency : Nat}

structure Receiver (latency : Nat) where
  notif : Latent 512 latency (BitVec 88)
  payload : Latent 512 latency (Bool × BitVec 512)
  metadata : Latent 512 latency (BitVec 88)

def Receiver.reset : Receiver latency := ⟨.empty, .empty, .empty⟩

/-- The input pins at one clock edge; a beat is `{tlast, tdata}`. -/
structure ReceiverIn where
  rst : Bool
  notifications : Option (BitVec 88)
  rxData : Option (Bool × BitVec 512)
  readTready : Bool
  pktTready : Bool

/-- `MAX_PACKET_BYTES`. -/
def maxPacketBytes : BitVec 16 := 4096

/-- The length field of a notification. -/
def notifLength (n : BitVec 88) : BitVec 16 := n.extractLsb' 16 16

/-- The filter: not whole lines, none (a closed connection), or too many. -/
def rejects (n : BitVec 88) : Bool :=
  decide (notifLength n % 64 ≠ 0) || decide (notifLength n < 64) ||
    decide (maxPacketBytes < notifLength n)

/-! ## 2. The combinational block and the clock -/

namespace Receiver

variable (s : Receiver latency) (i : ReceiverIn)

def notifTready : Bool :=
  if s.notif.shown.any rejects then true else s.metadata.tready && i.readTready

/-- The notification that is passed on: `metadata_rx_tdata`, where `metadata_rx_tvalid` is high. -/
def metadataRx : Option (BitVec 88) :=
  if s.notif.shown.any rejects then none else if s.notifTready i then s.notif.shown else none

/-- `m_axis_read_package`. -/
def readPackage : Option (BitVec 32) := (s.metadataRx i).map (·.extractLsb' 0 32)

/-- `pkt_tx`: `{metadata, {tlast, data}}`; no metadata where that FIFO shows none. -/
def pktTx : Option (Option (BitVec 88) × (Bool × BitVec 512)) :=
  s.payload.shown.map fun w => (s.metadata.shown, w)

def metadataTready : Bool := s.payload.shown.any (·.1) && (s.pktTx).isSome && i.pktTready

def payloadTready : Bool := (s.pktTx).isSome && i.pktTready

/-- **One clock edge of the receiver.** -/
def clock : Receiver latency :=
  if i.rst then Receiver.reset
  else
    { notif := s.notif.edge (if s.notif.tready then i.notifications else none) (s.notifTready i)
      payload := s.payload.edge (if s.payload.tready then i.rxData else none) (s.payloadTready i)
      metadata := s.metadata.edge (s.metadataRx i) (s.metadataTready i) }

end Receiver

/-! ## 3. Segments -/

/-- A notification and the data the stack has for it, as many lines as it says. -/
structure Segment where
  notif : BitVec 88
  data : List (BitVec 512)
  sized : data.length = (notifLength notif).toNat / 64

/-- A packet on the wire: `tlast` on the last beat. -/
def packetBeats : List (BitVec 512) → List (Bool × BitVec 512)
  | [] => []
  | d :: ds => (ds.isEmpty, d) :: packetBeats ds

namespace Segment

/-- The length is a multiple of 64 between 64 and 4096. -/
def Valid (p : Segment) : Prop :=
  64 ∣ (notifLength p.notif).toNat ∧ 64 ≤ (notifLength p.notif).toNat ∧
    (notifLength p.notif).toNat ≤ 4096

instance (p : Segment) : Decidable p.Valid :=
  inferInstanceAs (Decidable (64 ∣ _ ∧ _ ≤ _ ∧ _ ≤ _))

def beats (p : Segment) : List (Bool × BitVec 512) := packetBeats p.data

/-- What has to be issued for a notification: the read request and the metadata entry, together. -/
def request (p : Segment) : Option (BitVec 32) × Option (BitVec 88) :=
  (some (p.notif.extractLsb' 0 32), some p.notif)

/-- What has to leave for a packet: its beats, each with the metadata. -/
def packet (p : Segment) : List (Option (BitVec 88) × (Bool × BitVec 512)) :=
  p.beats.map fun w => (some p.notif, w)

end Segment

/-- The filter keeps the notifications of whole lines in range. -/
theorem rejects_iff (p : Segment) : rejects p.notif = false ↔ p.Valid := by
  unfold rejects Segment.Valid maxPacketBytes
  generalize notifLength p.notif = n
  rw [Bool.or_eq_false_iff, Bool.or_eq_false_iff, decide_eq_false_iff_not, decide_eq_false_iff_not,
    decide_eq_false_iff_not, Decidable.not_not, BitVec.lt_def, BitVec.lt_def, Nat.not_lt, Nat.not_lt,
    Nat.dvd_iff_mod_eq_zero, and_assoc]
  refine and_congr_left' ?_
  rw [← BitVec.toNat_inj, BitVec.toNat_umod]
  rfl

/-- The beat with `tlast` is the last one. -/
theorem packet_last {ds : List (BitVec 512)} {sent left : List (Bool × BitVec 512)}
    {w : Bool × BitVec 512} (h : packetBeats ds = sent ++ w :: left) : w.1 = true ↔ left = [] := by
  induction ds generalizing sent with
  | nil => simp [packetBeats] at h
  | cons d ds ih =>
      cases sent with
      | cons v sent => exact ih (List.cons.inj h).2
      | nil =>
          obtain ⟨rfl, rfl⟩ := List.cons.inj h
          cases ds <;> simp [packetBeats]

theorem length_packetBeats (ds : List (BitVec 512)) : (packetBeats ds).length = ds.length := by
  induction ds with
  | nil => rfl
  | cons d ds ih => rw [packetBeats, List.length_cons, List.length_cons, ih]

/-- A valid segment has a beat. -/
theorem beats_ne_nil {p : Segment} (h : p.Valid) : p.beats ≠ [] := by
  intro hnil
  have hlen := length_packetBeats p.data
  rw [show packetBeats p.data = [] from hnil, p.sized] at hlen
  have := Nat.div_pos h.2.1 (by decide)
  simp at hlen
  omega

/-! ## 4. The receiver and the stack -/

/-- The receiver, the notifications to be offered, the segments whose read request is to come, the beats
    the stack owes, and what was issued and what has left. -/
structure Inlet (latency : Nat) where
  receiver : Receiver latency
  todo : List (BitVec 88)
  unread : List Segment
  owed : List (Bool × BitVec 512)
  requests : List (Option (BitVec 32) × Option (BitVec 88))
  out : List (Option (BitVec 88) × (Bool × BitVec 512))

/-- Who stalls at an edge. -/
structure InletIn where
  notify : Bool
  answer : Bool
  readTready : Bool
  pktTready : Bool

namespace Inlet

/-- The segments with a valid length are those that the stack is asked for. -/
def init (latency : Nat) (ps : List Segment) : Inlet latency :=
  ⟨Receiver.reset, ps.map (·.notif), ps.filter (·.Valid), [], [], []⟩

variable (l : Inlet latency) (i : InletIn)

/-- The pins of the receiver. -/
def pins : ReceiverIn where
  rst := false
  notifications := if i.notify then l.todo.head? else none
  rxData := if i.answer then l.owed.head? else none
  readTready := i.readTready
  pktTready := i.pktTready

/-- The notification taken in. -/
def notified : Option (BitVec 88) :=
  if l.receiver.notif.tready then (l.pins i).notifications else none

/-- The beat taken in. -/
def delivered : Option (Bool × BitVec 512) :=
  if l.receiver.payload.tready then (l.pins i).rxData else none

/-- The notification that leaves its FIFO, and the beat. -/
def decided : Option (Nat × BitVec 88) := l.receiver.notif.left (l.receiver.notifTready (l.pins i))
def released : Option (Nat × (Bool × BitVec 512)) :=
  l.receiver.payload.left (l.receiver.payloadTready (l.pins i))

/-- The metadata entry written, and the one that leaves. -/
def entry : Option (BitVec 88) := l.receiver.metadataRx (l.pins i)
def retired : Option (Nat × BitVec 88) :=
  l.receiver.metadata.left (l.receiver.metadataTready (l.pins i))

/-- The segment that the stack is asked for. -/
def asked : List Segment :=
  if (l.receiver.readPackage (l.pins i)).isSome then l.unread.head?.toList else []

/-- What the two logs gain. -/
def issues : List (Option (BitVec 32) × Option (BitVec 88)) :=
  if (l.receiver.readPackage (l.pins i)).isSome || (l.entry i).isSome then
    [(l.receiver.readPackage (l.pins i), l.entry i)]
  else []

def leaves : List (Option (BitVec 88) × (Bool × BitVec 512)) :=
  if i.pktTready then l.receiver.pktTx.toList else []

/-- **One edge of the receiver and the stack.** The beats of an answer follow those owed already. -/
def step : Inlet latency where
  receiver := l.receiver.clock (l.pins i)
  todo := if (l.notified i).isSome then l.todo.tail else l.todo
  unread := if (l.receiver.readPackage (l.pins i)).isSome then l.unread.tail else l.unread
  owed := (if (l.delivered i).isSome then l.owed.tail else l.owed) ++ (l.asked i).flatMap (·.beats)
  requests := l.requests ++ l.issues i
  out := l.out ++ l.leaves i

end Inlet

/-! ## 5. What an edge can do -/

section Edge

variable (l : Inlet latency) (i : InletIn)

theorem notified_todo : (l.notified i).toList ++ (l.step i).todo = l.todo :=
  List.toList_taken (Option.offer_cases ..)

theorem delivered_owed : (l.delivered i).toList ++ (l.step i).owed =
    l.owed ++ (l.asked i).flatMap (·.beats) := by
  have h : (l.delivered i).toList ++ (if (l.delivered i).isSome then l.owed.tail else l.owed) =
      l.owed := List.toList_taken (Option.offer_cases ..)
  rw [Inlet.step, ← List.append_assoc, h]

/-- The three FIFOs, item by item. -/
theorem notif_items : (l.decided i).toList ++ (l.step i).receiver.notif.fifo.items =
    l.receiver.notif.fifo.items ++ ((l.notified i).map (l.receiver.notif.now, ·)).toList := by
  refine Latent.edge_items _ fun h => ?_
  cases hr : l.receiver.notif.tready with
  | true => rfl
  | false => rw [hr] at h; cases h

theorem payload_items : (l.released i).toList ++ (l.step i).receiver.payload.fifo.items =
    l.receiver.payload.fifo.items ++ ((l.delivered i).map (l.receiver.payload.now, ·)).toList := by
  refine Latent.edge_items _ fun h => ?_
  cases hr : l.receiver.payload.tready with
  | true => rfl
  | false => rw [hr] at h; cases h

/-- A read request and a metadata entry are issued together. -/
theorem issues_eq : l.issues i =
    ((l.entry i).map fun n => (some (n.extractLsb' 0 32), some n)).toList := by
  unfold Inlet.issues Receiver.readPackage
  rw [show l.receiver.metadataRx (l.pins i) = l.entry i from rfl]
  cases l.entry i <;> rfl

theorem asked_eq : l.asked i = if (l.entry i).isSome then l.unread.head?.toList else [] := by
  unfold Inlet.asked Receiver.readPackage
  rw [Option.isSome_map]
  rfl

/-- **What becomes of a notification**: nothing yet, it is dropped, or it is passed on. -/
theorem decide_cases : (l.decided i = none ∧ l.entry i = none) ∨
    (∃ x, l.decided i = some x ∧ rejects x.2 = true ∧ l.entry i = none) ∨
    (∃ x, l.decided i = some x ∧ rejects x.2 = false ∧ l.entry i = some x.2 ∧
      l.receiver.metadata.tready = true) := by
  have hentry : l.entry i = l.receiver.metadataRx (l.pins i) := rfl
  have hdec : l.decided i = if l.receiver.notifTready (l.pins i) then l.receiver.notif.head else none :=
    rfl
  have hshown : l.receiver.notif.shown = l.receiver.notif.head.map (·.2) := rfl
  rw [hentry, hdec, Receiver.metadataRx, Receiver.notifTready, hshown]
  cases hh : l.receiver.notif.head with
  | none => exact Or.inl ⟨by simp, by simp⟩
  | some x =>
      cases hx : rejects x.2 with
      | true => exact Or.inr (Or.inl ⟨x, by simp [hx], hx, by simp [hx]⟩)
      | false =>
          cases hr : (l.receiver.metadata.tready && (l.pins i).readTready) with
          | false => exact Or.inl ⟨by simp [hx], by simp [hx]⟩
          | true =>
              exact Or.inr (Or.inr ⟨x, by simp [hx], hx, by simp [hx],
                ((Bool.and_eq_true ..).mp hr).1⟩)

theorem metadata_items : (l.retired i).toList ++ (l.step i).receiver.metadata.fifo.items =
    l.receiver.metadata.fifo.items ++ ((l.entry i).map (l.receiver.metadata.now, ·)).toList := by
  refine Latent.edge_items _ fun h => ?_
  have hsome : (l.entry i).isSome = true := h
  rcases decide_cases l i with ⟨-, he⟩ | ⟨-, -, -, he⟩ | ⟨-, -, -, -, hr⟩
  · rw [he] at hsome; cases hsome
  · rw [he] at hsome; cases hsome
  · exact hr

/-- **What leaves on `pkt_tx`**: nothing, or the beat that is shown, with the metadata shown; a last
    beat takes the metadata along. -/
theorem release_cases : (l.released i = none ∧ l.retired i = none ∧ l.leaves i = []) ∨
    (∃ x, l.receiver.payload.head = some x ∧ l.released i = some x ∧
      l.retired i = (if x.2.1 then l.receiver.metadata.head else none) ∧
      l.leaves i = [(l.receiver.metadata.shown, x.2)]) := by
  have hrel : l.released i =
      if l.receiver.payloadTready (l.pins i) then l.receiver.payload.head else none := rfl
  have hret : l.retired i =
      if l.receiver.metadataTready (l.pins i) then l.receiver.metadata.head else none := rfl
  have hready : (l.pins i).pktTready = i.pktTready := rfl
  have hshown : l.receiver.payload.shown = l.receiver.payload.head.map (·.2) := rfl
  rw [hrel, hret, Inlet.leaves, Receiver.metadataTready, Receiver.payloadTready, Receiver.pktTx, hready,
    hshown]
  cases hh : l.receiver.payload.head with
  | none => exact Or.inl ⟨by simp, by simp, by simp⟩
  | some x =>
      cases i.pktTready with
      | false => exact Or.inl ⟨by simp, by simp, by simp⟩
      | true => exact Or.inr ⟨x, rfl, by simp, by simp, by simp⟩

end Edge

/-! ## 6. The books -/

/-- The beats to come for the packets `held`, each with the edge its metadata was written at. -/
def due (held : List (Nat × Segment)) : List (Nat × (Bool × BitVec 512)) :=
  held.flatMap fun h => h.2.beats.map fun w => (h.1, w)

/-- Of the first packet held some beats are sent, and at least one is left. -/
inductive Inside : List (Nat × Segment) → List (Bool × BitVec 512) →
    List (Nat × (Bool × BitVec 512)) → Prop where
  | idle : Inside [] [] []
  | busy {h : Nat × Segment} {hs : List (Nat × Segment)} {sent left : List (Bool × BitVec 512)}
      (beats : h.2.beats = sent ++ left) (ne : left ≠ []) :
      Inside (h :: hs) sent (left.map (fun w => (h.1, w)) ++ due hs)

/-- Of the beats left the first are in the FIFO, none before its metadata; the others are owed. -/
inductive Arrived : List (Nat × (Bool × BitVec 512)) → List (Nat × (Bool × BitVec 512)) →
    List (Bool × BitVec 512) → Prop where
  | owed (left : List (Nat × (Bool × BitVec 512))) : Arrived left [] (left.map (·.2))
  | item {m t : Nat} {w : Bool × BitVec 512} {left items : List (Nat × (Bool × BitVec 512))}
      {owed : List (Bool × BitVec 512)} (after : m ≤ t) (h : Arrived left items owed) :
      Arrived ((m, w) :: left) ((t, w) :: items) owed

theorem due_append (hs hs' : List (Nat × Segment)) : due (hs ++ hs') = due hs ++ due hs' :=
  List.flatMap_append

/-- The packets held are valid. -/
theorem Inside.start {hs : List (Nat × Segment)} (hv : ∀ h ∈ hs, h.2.Valid) : Inside hs [] (due hs) := by
  cases hs with
  | nil => exact .idle
  | cons h hs => exact .busy rfl (beats_ne_nil (hv h (List.mem_cons_self ..)))

theorem Inside.append {hs hs' : List (Nat × Segment)} {sent : List (Bool × BitVec 512)}
    {left : List (Nat × (Bool × BitVec 512))} (h : Inside hs sent left)
    (hv : ∀ h ∈ hs', h.2.Valid) : Inside (hs ++ hs') sent (left ++ due hs') := by
  cases h with
  | idle => exact Inside.start hv
  | busy beats ne =>
      rw [List.append_assoc, ← due_append]
      exact .busy beats ne

theorem Inside.stamps {hs : List (Nat × Segment)} {sent : List (Bool × BitVec 512)}
    {left : List (Nat × (Bool × BitVec 512))} {now : Nat} (h : Inside hs sent left)
    (hn : ∀ h ∈ hs, h.1 < now) : ∀ x ∈ left, x.1 < now := by
  have hdue : ∀ hs : List (Nat × Segment), (∀ h ∈ hs, h.1 < now) → ∀ x ∈ due hs, x.1 < now := by
    intro hs hn x hx
    obtain ⟨g, hg, hx⟩ := List.mem_flatMap.mp hx
    obtain ⟨w, -, rfl⟩ := List.mem_map.mp hx
    exact hn g hg
  intro x hx
  cases h with
  | idle => cases hx
  | @busy h hs sent left beats ne =>
      rcases List.mem_append.mp hx with hx | hx
      · obtain ⟨w, -, rfl⟩ := List.mem_map.mp hx
        exact hn h (List.mem_cons_self ..)
      · exact hdue hs (fun g hg => hn g (List.mem_cons_of_mem _ hg)) x hx

/-- No beat is left: no packet is held. -/
theorem Inside.nil {hs : List (Nat × Segment)} {sent : List (Bool × BitVec 512)}
    {left : List (Nat × (Bool × BitVec 512))} (h : Inside hs sent left) (hl : left = []) :
    hs = [] ∧ sent = [] := by
  cases h with
  | idle => exact ⟨rfl, rfl⟩
  | busy beats ne =>
      have hnil := (List.append_eq_nil_iff.mp hl).1
      exact absurd (List.map_eq_nil_iff.mp hnil) ne

/-- The next beat is one of the first packet held. -/
theorem Inside.next {hs : List (Nat × Segment)} {sent : List (Bool × BitVec 512)}
    {all left : List (Nat × (Bool × BitVec 512))} {m : Nat} {w : Bool × BitVec 512}
    (h : Inside hs sent all) (he : all = (m, w) :: left) :
    ∃ g gs bs, hs = (m, g) :: gs ∧ g.beats = sent ++ w :: bs ∧
      left = bs.map (fun v => (m, v)) ++ due gs := by
  cases h with
  | idle => cases he
  | @busy h hs sent bs beats ne =>
      cases bs with
      | nil => exact absurd rfl ne
      | cons v bs =>
          obtain ⟨hv, rfl⟩ := List.cons.inj he
          obtain ⟨rfl, rfl⟩ := Prod.mk.inj hv
          exact ⟨h.2, hs, bs, rfl, beats, rfl⟩

/-- More beats are owed. -/
theorem Arrived.append {left items : List (Nat × (Bool × BitVec 512))} {owed : List (Bool × BitVec 512)}
    (h : Arrived left items owed) (more : List (Nat × (Bool × BitVec 512))) :
    Arrived (left ++ more) items (owed ++ more.map (·.2)) := by
  induction h with
  | owed left => rw [← List.map_append]; exact .owed _
  | item after h ih => exact .item after ih

/-- A beat that was owed arrives. -/
theorem Arrived.deliver {left items : List (Nat × (Bool × BitVec 512))} {d : Bool × BitVec 512}
    {all owed : List (Bool × BitVec 512)} {now : Nat} (h : Arrived left items all) (he : all = d :: owed)
    (hn : ∀ x ∈ left, x.1 ≤ now) : Arrived left (items ++ [(now, d)]) owed := by
  induction h with
  | owed left =>
      cases left with
      | nil => cases he
      | cons x left =>
          obtain ⟨rfl, rfl⟩ := List.cons.inj he
          exact .item (hn x (List.mem_cons_self ..)) (.owed left)
  | item after h ih => exact .item after (ih he fun x hx => hn x (List.mem_cons_of_mem _ hx))

theorem Arrived.beats {left items : List (Nat × (Bool × BitVec 512))} {owed : List (Bool × BitVec 512)}
    (h : Arrived left items owed) : left.map (·.2) = items.map (·.2) ++ owed := by
  induction h with
  | owed left => rfl
  | item after h ih => rw [List.map_cons, List.map_cons, List.cons_append, ih]

/-! ## 7. Which packet the receiver is in -/

/-- The segments `done` are decided, `rest` are not; of the valid ones among the first, `gone` have left
    and `held` have their metadata in the FIFO, the first of them with the beats `sent` gone. -/
structure At (l : Inlet latency) (done rest gone : List Segment) (held : List (Nat × Segment))
    (sent : List (Bool × BitVec 512)) (left : List (Nat × (Bool × BitVec 512))) : Prop where
  clocks : l.receiver.metadata.now = l.receiver.payload.now
  notifs : l.receiver.notif.fifo.items.map (·.2) ++ l.todo = rest.map (·.notif)
  unread : l.unread = rest.filter (·.Valid)
  requests : l.requests = (done.filter (·.Valid)).map (·.request)
  valid : done.filter (·.Valid) = gone ++ held.map (·.2)
  metadata : l.receiver.metadata.fifo.items = held.map fun h => (h.1, h.2.notif)
  past : ∀ h ∈ held, h.1 < l.receiver.metadata.now
  inside : Inside held sent left
  arrived : Arrived left l.receiver.payload.fifo.items l.owed
  out : l.out = gone.flatMap (·.packet) ++ sent.map fun w => (held.head?.map (·.2.notif), w)

/-- **The story so far.** -/
def Received (ps : List Segment) (l : Inlet latency) : Prop :=
  ∃ done rest gone held sent left, ps = done ++ rest ∧ At l done rest gone held sent left

theorem received_init (ps : List Segment) : Received ps (.init latency ps) := by
  refine ⟨[], ps, [], [], [], [], rfl, rfl, rfl, rfl, rfl, rfl, rfl, ?_, .idle, .owed [], rfl⟩
  intro h hh
  cases hh

section Step

variable {l : Inlet latency} {i : InletIn} {done rest gone : List Segment} {held : List (Nat × Segment)}
  {sent : List (Bool × BitVec 512)} {left : List (Nat × (Bool × BitVec 512))}

theorem At.held_valid (h : At l done rest gone held sent left) : ∀ g ∈ held, g.2.Valid := by
  intro g hg
  have hmem : g.2 ∈ done.filter (·.Valid) := by
    rw [h.valid]
    exact List.mem_append_right _ (List.mem_map_of_mem hg)
  exact of_decide_eq_true (List.mem_filter.mp hmem).2

/-- **A notification is decided**, or none. -/
theorem At.decide (h : At l done rest gone held sent left) (i : InletIn) :
    ∃ done' rest', done ++ rest = done' ++ rest' ∧
      (l.step i).receiver.notif.fifo.items.map (·.2) ++ (l.step i).todo = rest'.map (·.notif) ∧
      (l.step i).unread = rest'.filter (·.Valid) ∧
      (l.step i).requests = (done'.filter (·.Valid)).map (·.request) ∧
      done'.filter (·.Valid) = done.filter (·.Valid) ++ l.asked i ∧
      (l.entry i).toList = (l.asked i).map (·.notif) ∧ ∀ p ∈ l.asked i, p.Valid := by
  -- the notifications before and after the edge
  have hnotif : ((l.decided i).map (·.2)).toList ++
      ((l.step i).receiver.notif.fifo.items.map (·.2) ++ (l.step i).todo) = rest.map (·.notif) := by
    have hitems := congrArg (List.map (·.2)) (notif_items l i)
    rw [List.map_append, List.map_append, ← Option.toList_map, ← Option.toList_map, Option.map_map]
      at hitems
    rw [← List.append_assoc, hitems, List.append_assoc]
    have hid : Option.map ((fun x => x.2) ∘ fun n => (l.receiver.notif.now, n)) (l.notified i) =
        l.notified i := Option.map_id'
    rw [hid, notified_todo, h.notifs]
  have hunread : (l.step i).unread = if (l.entry i).isSome then l.unread.tail else l.unread := by
    rw [Inlet.step, Receiver.readPackage, Option.isSome_map]
    rfl
  have hreq : (l.step i).requests = l.requests ++ l.issues i := rfl
  rw [issues_eq] at hreq
  have hasked := asked_eq l i
  rcases decide_cases l i with ⟨hd, he⟩ | ⟨x, hd, hx, he⟩ | ⟨x, hd, hx, he, -⟩
  · rw [he] at hunread hreq hasked
    rw [hd] at hnotif
    refine ⟨done, rest, rfl, hnotif, hunread.trans h.unread, ?_, ?_, ?_, ?_⟩
    · rw [hreq, h.requests]; exact List.append_nil _
    · rw [hasked]; exact (List.append_nil _).symm
    · rw [hasked, he]; rfl
    · rw [hasked]; exact fun p hp => nomatch hp
  · rw [he] at hunread hreq hasked
    rw [hd] at hnotif
    cases rest with
    | nil => cases hnotif
    | cons p rest =>
        obtain ⟨(hxp : x.2 = p.notif), hnotif⟩ := List.cons.inj hnotif
        have hp : ¬ p.Valid := by
          rw [← rejects_iff, ← hxp, hx]
          exact Bool.noConfusion
        refine ⟨done ++ [p], rest, by rw [List.append_assoc]; rfl, hnotif, ?_, ?_, ?_, ?_, ?_⟩
        · rw [hunread, h.unread, List.filter_cons_of_neg (by simpa using hp)]
          rfl
        · rw [hreq, h.requests, List.filter_append, List.filter_cons_of_neg (by simpa using hp)]
          simp
        · rw [hasked, List.filter_append, List.filter_cons_of_neg (by simpa using hp)]
          rfl
        · rw [hasked, he]; rfl
        · rw [hasked]; exact fun p hp => nomatch hp
  · rw [he] at hunread hreq hasked
    rw [hd] at hnotif
    cases rest with
    | nil => cases hnotif
    | cons p rest =>
        obtain ⟨(hxp : x.2 = p.notif), hnotif⟩ := List.cons.inj hnotif
        have hp : p.Valid := by
          rw [← rejects_iff, ← hxp]
          exact hx
        have hun : l.unread = p :: rest.filter (·.Valid) := by
          rw [h.unread, List.filter_cons_of_pos (by simpa using hp)]
        rw [hun] at hunread hasked
        have hask : l.asked i = [p] := hasked
        refine ⟨done ++ [p], rest, by rw [List.append_assoc]; rfl, hnotif, hunread, ?_, ?_, ?_, ?_⟩
        · rw [hreq, h.requests, List.filter_append, List.filter_cons_of_pos (by simpa using hp),
            List.map_append, hxp]
          rfl
        · rw [hask, List.filter_append, List.filter_cons_of_pos (by simpa using hp)]
          rfl
        · rw [he, hask, hxp]; rfl
        · rw [hask]
          intro q hq
          rw [List.mem_singleton.mp hq]
          exact hp

/-- **A beat leaves**, or none: with the metadata of its packet, which a last beat takes along. -/
theorem At.release (h : At l done rest gone held sent left) (i : InletIn) :
    ∃ gone' held' sent' left' items, gone ++ held.map (·.2) = gone' ++ held'.map (·.2) ∧
      l.receiver.metadata.fifo.items = (l.retired i).toList ++ held'.map (fun g => (g.1, g.2.notif)) ∧
      l.receiver.payload.fifo.items = (l.released i).toList ++ items ∧ (∀ g ∈ held', g ∈ held) ∧
      Inside held' sent' left' ∧ Arrived left' items l.owed ∧
      (l.step i).out = gone'.flatMap (·.packet) ++ sent'.map fun w => (held'.head?.map (·.2.notif), w) := by
  have hout : (l.step i).out = l.out ++ l.leaves i := rfl
  rcases release_cases l i with ⟨hrel, hret, hl⟩ | ⟨x, hx, hrel, hret, hl⟩
  · refine ⟨gone, held, sent, left, _, rfl, ?_, ?_, fun g hg => hg, h.inside, h.arrived, ?_⟩
    · rw [hret, h.metadata]; rfl
    · rw [hrel]; rfl
    · rw [hout, hl, List.append_nil, h.out]
  · obtain ⟨hhead, hripe⟩ := Latent.head_eq hx
    obtain ⟨items, hitems⟩ := List.head?_eq_some_iff.mp hhead
    have harr := h.arrived
    have hins := h.inside
    rw [hitems] at harr
    cases harr with
    | @item m t w rest' _ _ after harr =>
        obtain ⟨p, gs, bs, rfl, hb, rfl⟩ := hins.next rfl
        have hmeta : l.receiver.metadata.head = some (m, p.notif) := by
          refine Latent.head_of_stamp h.metadata ?_
          rw [h.clocks]
          exact Nat.le_trans (Nat.add_le_add_right after _) hripe
        have hshown : l.receiver.metadata.shown = some p.notif := by rw [Latent.shown, hmeta]; rfl
        rw [hshown] at hl
        cases hlast : w.1 with
        | true =>
            -- the packet is through
            have hbs : bs = [] := (packet_last hb).mp hlast
            subst hbs
            refine ⟨gone ++ [p], gs, [], due gs, items, ?_, ?_, ?_, ?_, ?_, harr, ?_⟩
            · rw [List.append_assoc]; rfl
            · rw [hret, hlast, if_pos rfl, hmeta, h.metadata]; rfl
            · rw [hrel]; exact hitems
            · exact fun g hg => List.mem_cons_of_mem _ hg
            · exact Inside.start fun g hg => h.held_valid g (List.mem_cons_of_mem _ hg)
            · rw [hout, hl, h.out, List.flatMap_append, List.flatMap_singleton, Segment.packet, hb]
              simp
        | false =>
            have hbs : bs ≠ [] := fun he => by rw [(packet_last hb).mpr he] at hlast; cases hlast
            refine ⟨gone, (m, p) :: gs, sent ++ [w], _, items, rfl, ?_, ?_, fun g hg => hg,
              .busy (by rw [hb, List.append_assoc]; rfl) hbs, harr, ?_⟩
            · rw [hret, hlast, h.metadata]; rfl
            · rw [hrel]; exact hitems
            · rw [hout, hl, h.out, List.map_append, List.append_assoc]
              rfl

/-- **An edge keeps the story.** -/
theorem received_step {ps : List Segment} (h : Received ps l) (i : InletIn) :
    Received ps (l.step i) := by
  obtain ⟨done, rest, gone, held, sent, left, rfl, h⟩ := h
  obtain ⟨done', rest', hsplit, hnotifs, hunread, hreq, hdone, hentry, hasked⟩ := h.decide i
  obtain ⟨gone', held', sent', left', items, hgone, hmeta, hpay, hsub, hins, harr, hout⟩ := h.release i
  have hnow : (l.step i).receiver.metadata.now = l.receiver.metadata.now + 1 := rfl
  let new := (l.asked i).map fun p => (l.receiver.metadata.now, p)
  have hnew : ∀ g ∈ new, g.2.Valid := by
    intro g hg
    obtain ⟨p, hp, rfl⟩ := List.mem_map.mp hg
    exact hasked p hp
  have hsnd : new.map (·.2) = l.asked i := by
    rw [List.map_map]
    exact List.map_id _
  have hdue : (due new).map (·.2) = (l.asked i).flatMap (·.beats) := by
    rw [due, List.map_flatMap, List.flatMap_map]
    refine List.flatMap_congr fun p _ => ?_
    rw [List.map_map]
    exact List.map_id _
  have hpast : ∀ g ∈ held' ++ new, g.1 < (l.step i).receiver.metadata.now := by
    intro g hg
    rw [hnow]
    rcases List.mem_append.mp hg with hg | hg
    · exact Nat.lt_succ_of_lt (h.past g (hsub g hg))
    · obtain ⟨p, -, rfl⟩ := List.mem_map.mp hg
      exact Nat.lt_succ_self _
  have hins' := hins.append hnew
  have harr' : Arrived (left' ++ due new) items (l.owed ++ (l.asked i).flatMap (·.beats)) := by
    rw [← hdue]
    exact harr.append (due new)
  refine ⟨done', rest', gone', held' ++ new, sent', left' ++ due new, hsplit,
    congrArg (· + 1) h.clocks, hnotifs, hunread, hreq, ?_, ?_, hpast, hins', ?_, ?_⟩
  · rw [hdone, h.valid, hgone, List.map_append, hsnd, List.append_assoc]
  · have hitems := metadata_items l i
    rw [hmeta, List.append_assoc] at hitems
    rw [List.append_cancel_left hitems, List.map_append, Option.toList_map, hentry, List.map_map,
      List.map_map]
    rfl
  · have hitems := payload_items l i
    rw [hpay, List.append_assoc] at hitems
    rw [List.append_cancel_left hitems]
    have howed := delivered_owed l i
    rw [← howed] at harr'
    cases hd : l.delivered i with
    | none =>
        rw [hd] at harr'
        rw [Option.map_none, Option.toList_none, List.append_nil]
        exact harr'
    | some d =>
        rw [hd] at harr'
        refine harr'.deliver rfl fun x hx => ?_
        rw [← h.clocks]
        exact Nat.le_of_lt_succ (hins'.stamps hpast x hx)
  · rw [hout]
    cases hins with
    | idle => rfl
    | busy beats ne => rfl

end Step

/-! ## 8. What is left to do -/

/-- Notifications to take in and to decide, beats to take in and to release. -/
def Inlet.work (l : Inlet latency) : Nat :=
  2 * l.todo.length + l.receiver.notif.fifo.items.length +
    2 * (l.unread.flatMap (·.beats)).length + 2 * l.owed.length + l.receiver.payload.fifo.items.length

/-- Nobody stalls. -/
def InletIn.willing (i : InletIn) : Bool := i.notify && i.answer && i.readTready && i.pktTready

/-- What an edge gets done. -/
def Inlet.done (l : Inlet latency) (i : InletIn) : Nat :=
  (l.notified i).toList.length + (l.decided i).toList.length + (l.delivered i).toList.length +
    (l.released i).toList.length

theorem asked_unread (l : Inlet latency) (i : InletIn) : l.asked i ++ (l.step i).unread = l.unread := by
  unfold Inlet.asked Inlet.step
  cases (l.receiver.readPackage (l.pins i)).isSome with
  | false => rfl
  | true => cases l.unread <;> rfl

/-- **What is done is not left.** -/
theorem inlet_work_step (l : Inlet latency) (i : InletIn) : (l.step i).work + l.done i = l.work := by
  have htodo := congrArg List.length (notified_todo l i)
  have hnotif := congrArg List.length (notif_items l i)
  have howed := congrArg List.length (delivered_owed l i)
  have hpay := congrArg List.length (payload_items l i)
  have hunread := congrArg (fun ps => (ps.flatMap (·.beats)).length) (asked_unread l i)
  simp only [List.flatMap_append, List.length_append, Option.toList_map, List.length_map]
    at htodo hnotif howed hpay hunread
  unfold Inlet.work Inlet.done
  omega

/-- Every item came in at edge `t` or before. -/
structure Settled (t : Nat) (l : Inlet latency) : Prop where
  clocks : l.receiver.notif.now = l.receiver.payload.now
  past : t ≤ l.receiver.payload.now
  notif : ∀ x ∈ l.receiver.notif.fifo.items, x.1 ≤ t
  payload : ∀ x ∈ l.receiver.payload.fifo.items, x.1 ≤ t

theorem Settled.step {t : Nat} {l : Inlet latency} (h : Settled t l) (i : InletIn) :
    Settled l.receiver.payload.now (l.step i) where
  clocks := congrArg (· + 1) h.clocks
  past := Nat.le_succ _
  notif := by
    intro x hx
    have hmem := List.mem_append_right (l.decided i).toList hx
    rw [notif_items, List.mem_append, Option.mem_toList, Option.map_eq_some_iff] at hmem
    rcases hmem with hx | ⟨n, -, rfl⟩
    · exact Nat.le_trans (h.notif x hx) h.past
    · exact Nat.le_of_eq h.clocks
  payload := by
    intro x hx
    have hmem := List.mem_append_right (l.released i).toList hx
    rw [payload_items, List.mem_append, Option.mem_toList, Option.map_eq_some_iff] at hmem
    rcases hmem with hx | ⟨n, -, rfl⟩
    · exact Nat.le_trans (h.payload x hx) h.past
    · exact Nat.le_refl _

/-- Where nothing is done, nothing comes in. -/
theorem Settled.still {t : Nat} {l : Inlet latency} (h : Settled t l) {i : InletIn}
    (hd : l.done i = 0) : Settled t (l.step i) := by
  have hnil : ∀ {α : Type} (x : Option α), x.toList.length = 0 → x = none := by
    intro α x hx
    cases x with
    | none => rfl
    | some y => cases hx
  unfold Inlet.done at hd
  have hn := hnil (l.notified i) (by omega)
  have hdec := hnil (l.decided i) (by omega)
  have hdel := hnil (l.delivered i) (by omega)
  have hrel := hnil (l.released i) (by omega)
  have hnotif := notif_items l i
  have hpay := payload_items l i
  rw [hn, hdec, Option.map_none, Option.toList_none, List.append_nil, List.nil_append] at hnotif
  rw [hdel, hrel, Option.map_none, Option.toList_none, List.append_nil, List.nil_append] at hpay
  refine ⟨congrArg (· + 1) h.clocks, Nat.le_succ_of_le h.past, ?_, ?_⟩
  · rw [hnotif]; exact h.notif
  · rw [hpay]; exact h.payload

/-- **Where nobody stalls and everything is old enough, something gets done.** -/
theorem inlet_done_pos {ps : List Segment} {l : Inlet latency} (h : Received ps l) {t : Nat}
    (ht : Settled t l) (hold : t + latency ≤ l.receiver.payload.now) {i : InletIn}
    (hw : i.willing = true) (hwork : l.work ≠ 0) : 0 < l.done i := by
  obtain ⟨done, rest, gone, held, sent, left, rfl, h⟩ := h
  simp only [InletIn.willing, Bool.and_eq_true] at hw
  obtain ⟨⟨⟨hn, ha⟩, hr⟩, hp⟩ := hw
  unfold Inlet.done
  cases hpay : l.receiver.payload.fifo.items with
  | cons x xs =>
      have hx : x.1 + latency ≤ l.receiver.payload.now := by
        have := ht.payload x (by rw [hpay]; exact List.mem_cons_self ..)
        omega
      have hhead := Latent.head_of_stamp hpay hx
      have hrel : l.released i = some x := by
        unfold Inlet.released Receiver.payloadTready Receiver.pktTx Latent.left Latent.shown
        rw [hhead, show (l.pins i).pktTready = true from hp]
        rfl
      rw [hrel, Option.toList_some, List.length_singleton]
      omega
  | nil =>
      cases howed : l.owed with
      | cons d ds =>
          have hdel : l.delivered i = some d := by
            have hroom : l.receiver.payload.tready = true := Fifo.tready_iff.mpr (by rw [hpay]; decide)
            unfold Inlet.delivered Inlet.pins
            rw [hroom, ha, howed]
            rfl
          rw [hdel, Option.toList_some, List.length_singleton]
          omega
      | nil =>
          -- no packet is held, so there is room for metadata
          have hheld : held = [] := by
            have hbeats := h.arrived.beats
            rw [hpay, howed] at hbeats
            exact (h.inside.nil (List.map_eq_nil_iff.mp hbeats)).1
          have hroom : l.receiver.metadata.tready = true := by
            refine Fifo.tready_iff.mpr ?_
            rw [h.metadata, hheld]
            decide
          cases hnotif : l.receiver.notif.fifo.items with
          | cons x xs =>
              have hx : x.1 + latency ≤ l.receiver.notif.now := by
                have := ht.notif x (by rw [hnotif]; exact List.mem_cons_self ..)
                rw [ht.clocks]
                omega
              have hhead := Latent.head_of_stamp hnotif hx
              have hdec : l.decided i = some x := by
                unfold Inlet.decided Receiver.notifTready Latent.left
                rw [hhead, hroom, show (l.pins i).readTready = true from hr]
                simp
              rw [hdec, Option.toList_some, List.length_singleton]
              omega
          | nil =>
              cases htodo : l.todo with
              | cons n ns =>
                  have hin : l.notified i = some n := by
                    have hfree : l.receiver.notif.tready = true :=
                      Fifo.tready_iff.mpr (by rw [hnotif]; decide)
                    unfold Inlet.notified Inlet.pins
                    rw [hfree, hn, htodo]
                    rfl
                  rw [hin, Option.toList_some, List.length_singleton]
                  omega
              | nil =>
                  refine absurd ?_ hwork
                  have hrest := h.notifs
                  rw [hnotif, htodo] at hrest
                  rw [Inlet.work, hpay, howed, hnotif, htodo, h.unread,
                    List.map_eq_nil_iff.mp hrest.symm]
                  rfl

/-- What is left, and how long until every item is old enough. -/
def Within (ps : List Segment) (m : Nat) (l : Inlet latency) : Prop :=
  Received ps l ∧ ∃ t, Settled t l ∧
    (latency + 1) * l.work + (t + latency - l.receiver.payload.now) ≤ m

theorem within_init (ps : List Segment) :
    Within ps ((latency + 1) * ((Inlet.init latency ps).work + 1)) (.init latency ps) := by
  refine ⟨received_init ps, 0, ⟨rfl, Nat.zero_le _, ?_, ?_⟩, ?_⟩
  · exact fun x hx => nomatch hx
  · exact fun x hx => nomatch hx
  · rw [Nat.mul_add]
    have : 0 + latency - (Inlet.init latency ps).receiver.payload.now ≤ latency := by omega
    omega

theorem within_step {ps : List Segment} {m : Nat} {l : Inlet latency} (h : Within ps m l)
    (i : InletIn) : Within ps (if i.willing then m - 1 else m) (l.step i) := by
  obtain ⟨hr, t, ht, hm⟩ := h
  refine ⟨received_step hr i, ?_⟩
  have hnow : (l.step i).receiver.payload.now = l.receiver.payload.now + 1 := rfl
  have hwork := inlet_work_step l i
  rcases Nat.eq_zero_or_pos (l.done i) with hd | hd
  · refine ⟨t, ht.still hd, ?_⟩
    rw [hd, Nat.add_zero] at hwork
    rw [hwork, hnow]
    cases hw : i.willing with
    | false =>
        rw [if_neg Bool.false_ne_true]
        omega
    | true =>
        rw [if_pos rfl]
        by_cases hold : t + latency ≤ l.receiver.payload.now
        · have hzero : l.work = 0 := by
            by_contra hne
            have := inlet_done_pos hr ht hold hw hne
            omega
          rw [hzero, Nat.mul_zero]
          omega
        · omega
  · refine ⟨_, ht.step i, ?_⟩
    have hmul : (latency + 1) * (l.step i).work + (latency + 1) ≤ (latency + 1) * l.work := by
      rw [← Nat.mul_succ]
      exact Nat.mul_le_mul_left _ (by omega)
    have : m - 1 ≤ if i.willing then m - 1 else m := by split <;> omega
    omega

/-! ## 9. The packets -/

theorem received_prefix {ps : List Segment} {l : Inlet latency} (h : Received ps l) :
    l.requests <+: (ps.filter (·.Valid)).map (·.request) ∧
      l.out <+: (ps.filter (·.Valid)).flatMap (·.packet) := by
  obtain ⟨done, rest, gone, held, sent, left, rfl, h⟩ := h
  rw [List.filter_append, List.map_append, h.requests, List.flatMap_append, h.valid, List.flatMap_append,
    h.out]
  refine ⟨List.prefix_append .., List.IsPrefix.trans ?_ (List.prefix_append ..)⟩
  refine (List.prefix_append_right_inj _).mpr ?_
  have hins := h.inside
  cases hins with
  | idle => exact List.nil_prefix
  | @busy g gs sent left beats ne =>
      rw [List.map_cons, List.flatMap_cons, Segment.packet, beats, List.map_append]
      exact (List.prefix_append ..).trans (List.prefix_append ..)

theorem received_done {ps : List Segment} {l : Inlet latency} (h : Received ps l) (hd : l.work = 0) :
    l.requests = (ps.filter (·.Valid)).map (·.request) ∧
      l.out = (ps.filter (·.Valid)).flatMap (·.packet) := by
  obtain ⟨done, rest, gone, held, sent, left, rfl, h⟩ := h
  unfold Inlet.work at hd
  have hnotif : l.receiver.notif.fifo.items = [] := List.length_eq_zero_iff.mp (by omega)
  have htodo : l.todo = [] := List.length_eq_zero_iff.mp (by omega)
  have hpay : l.receiver.payload.fifo.items = [] := List.length_eq_zero_iff.mp (by omega)
  have howed : l.owed = [] := List.length_eq_zero_iff.mp (by omega)
  have hrest := h.notifs
  rw [hnotif, htodo] at hrest
  obtain rfl := List.map_eq_nil_iff.mp hrest.symm
  have hleft : left = [] := by
    have hbeats := h.arrived.beats
    rw [hpay, howed] at hbeats
    exact List.map_eq_nil_iff.mp hbeats
  obtain ⟨rfl, rfl⟩ := h.inside.nil hleft
  rw [List.append_nil, h.requests, h.out, h.valid, List.map_nil, List.append_nil]
  exact ⟨rfl, List.append_nil _⟩

/-- **Received packets keep their own metadata.** Whoever stalls, a read request and a metadata entry
    are issued together, for the valid notifications in order and for no other; what leaves is their
    packets in order, each beat with its packet's notification; and after enough edges where nobody
    stalls all of it has happened, the rejected notifications are gone and nothing is left. -/
theorem packets_keep_metadata (latency : Nat) (ps : List Segment) (is : List InletIn) :
    (run Inlet.step (.init latency ps) is).requests <+: (ps.filter (·.Valid)).map (·.request) ∧
      (run Inlet.step (.init latency ps) is).out <+: (ps.filter (·.Valid)).flatMap (·.packet) ∧
      ((latency + 1) * ((Inlet.init latency ps).work + 1) ≤ is.countP InletIn.willing →
        (run Inlet.step (.init latency ps) is).requests = (ps.filter (·.Valid)).map (·.request) ∧
          (run Inlet.step (.init latency ps) is).out = (ps.filter (·.Valid)).flatMap (·.packet) ∧
          (run Inlet.step (.init latency ps) is).work = 0) := by
  have hinit : Within ps _ (.init latency ps) := within_init ps
  have hrun := run_countdown (P := Within ps) (Q := fun _ => True) (fun m l i h _ => within_step h i)
    hinit is fun _ _ => trivial
  obtain ⟨hrec, t, -, hleft⟩ := hrun
  obtain ⟨hreq, hout⟩ := received_prefix hrec
  refine ⟨hreq, hout, fun hn => ?_⟩
  have hzero : (run Inlet.step (.init latency ps) is).work = 0 := by
    rw [Nat.sub_eq_zero_of_le hn] at hleft
    have hmul : (latency + 1) * (run Inlet.step (.init latency ps) is).work = 0 := by omega
    exact (Nat.mul_eq_zero.mp hmul).resolve_left (Nat.succ_ne_zero latency)
  exact ⟨(received_done hrec hzero).1, (received_done hrec hzero).2, hzero⟩

end Frac.Tcp
