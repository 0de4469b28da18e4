/-
  File:      Frac/PktLogic/Egress.lean
  Subject:   The way out: two slots and the controller behind one sender. A slot's beats pass its
             decoupler and a register (`pattern_slot_tx_reg_inst`, `or_slot_tx_reg_inst`), the
             controller's go straight to the output switch, and `pkt_sender` hands what the switch
             puts out to the TCP stack.

  * `Egress.edge` -- one clock edge of registers, switch, sender and stack; `EgressTally` -- with what
    has crossed the ports;
  * `Routed` -- what each source has handed over, where it is now; `routed_run`;
  * `follow` -- the sender inside makes a run of the sender that is given the frames as a list
    (`Link`), the list being what the switch is going to send;
  * **`egress_frames`** -- whatever the three sources do, every transmission is one whole frame of one
    source, and the frames of each source go out in order, none lost.
-/
import Frac.Axis.Switch
import Frac.Tcp.Transmit

namespace Frac.PktLogic

open Clocked Axis Tcp Frames

/-! ## 1. The way out -/

/-- The registers behind the slots' decouplers, the switch, the sender, and how many statuses the TCP
    stack owes. -/
structure Egress where
  slotTxReg : Fin 2 → SkidRegs SendBeat
  switch : Switch 3 SendBeat
  sender : Sender
  owed : Nat

/-- The input pins at one clock edge: what the slots and the controller drive, `slot_decouple`, whether
    the stack answers and with which word, and whom it stalls. -/
structure EgressIn where
  slotTx : Fin 2 → Option SendBeat
  slotDecouple : Fin 2 → Bool
  reconfTx : Option SendBeat
  answer : Bool
  verdict : BitVec 64
  metadataTready : Bool
  dataTready : Bool
  status : Fifo.Pins
  payload : Fifo.Pins
  metadata : Fifo.Pins

namespace Egress

def reset : Egress := ⟨fun _ => .reset, .reset 3 SendBeat, .reset, 0⟩

variable (y : Egress) (i : EgressIn)

/-- `pattern_tx_decoupled_tdata`, `or_tx_decoupled_tdata`, where their `tvalid` is high. -/
def txDecoupled (k : Fin 2) : Option SendBeat := if i.slotDecouple k then none else i.slotTx k

/-- What the three ports of the switch are offered: C00, C01, the controller. -/
def offers (m : Fin 3) : Option SendBeat :=
  if h : m.val < 2 then (y.slotTxReg ⟨m.val, h⟩).mAxisReg else i.reconfTx

/-- The pins of the sender. -/
def pins : SenderIn where
  rst := false
  rx := y.switch.mAxis
  txStatus := if i.answer && decide (0 < y.owed) then some i.verdict else none
  metadataTready := i.metadataTready
  dataTready := i.dataTready
  status := i.status
  payload := i.payload
  metadata := i.metadata

/-- `pkt_tx_tready`. -/
def txTready : Bool := y.sender.rxTready (y.pins i)

/-- The status the sender takes in, and the metadata word the stack takes. -/
def accepted : Option (BitVec 64) := if y.sender.status.room i.status then (y.pins i).txStatus else none
def announced : Option (BitVec 32) := y.sender.metadataLeft (y.pins i)

/-- **One clock edge** with `rst` low. -/
def edge : Egress where
  slotTxReg k := (y.slotTxReg k).edge (txDecoupled i k) (y.switch.sTready k.castSucc)
  switch := y.switch.edge (·.tlast) (y.offers i) (y.txTready i)
  sender := y.sender.clock (y.pins i)
  owed := y.owed - (y.accepted i).toList.length + (y.announced i).toList.length

/-- The beat source `m` hands over at an edge. -/
def handed (m : Fin 3) : Option SendBeat :=
  if h : m.val < 2 then if (y.slotTxReg ⟨m.val, h⟩).sAxisTreadyReg then txDecoupled i ⟨m.val, h⟩ else none
  else if y.switch.sTready m then i.reconfTx else none

/-- What is held of a source before the switch. -/
def held (m : Fin 3) : List SendBeat := if h : m.val < 2 then (y.slotTxReg ⟨m.val, h⟩).items else []

end Egress

/-- The way out with what has crossed its ports: what each source handed over, what the switch took, each
    beat with its port, what it sent, and what crossed to the stack. -/
structure EgressTally where
  state : Egress
  given : Fin 3 → List SendBeat
  taken : List (Fin 3 × SendBeat)
  sent : List SendBeat
  log : List Crossing

namespace EgressTally

def init : EgressTally := ⟨.reset, fun _ => [], [], [], []⟩

/-- What the log gains. -/
def shows (t : EgressTally) (i : EgressIn) : List Crossing :=
  let c := t.state.sender.crossing (t.state.pins i)
  if c = .quiet then [] else [c]

def clock (t : EgressTally) (i : EgressIn) : EgressTally where
  state := t.state.edge i
  given m := t.given m ++ (t.state.handed i m).toList
  taken := t.taken ++ (t.state.switch.taken (t.state.offers i)).toList
  sent := t.sent ++ (if t.state.txTready i then t.state.switch.mAxis else none).toList
  log := t.log ++ t.shows i

/-- The switch alone. -/
def switchTally (t : EgressTally) : SwitchTally 3 SendBeat := ⟨t.state.switch, t.taken, t.sent⟩

theorem switchTally_clock (t : EgressTally) (i : EgressIn) :
    (t.clock i).switchTally = t.switchTally.clock (·.tlast) ⟨false, t.state.offers i, t.state.txTready i⟩ := rfl

/-! ## 2. What the sources hand over -/

/-- **Where the beats are**: what a source handed over was taken from its port or is in its register. -/
structure Routed (t : EgressTally) : Prop where
  kept : t.switchTally.Kept (·.tlast)
  regs : ∀ k, (t.state.slotTxReg k).Wf
  given : ∀ m, t.given m = ofSource m t.taken ++ t.state.held m

theorem routed_init : init.Routed :=
  ⟨SwitchTally.kept_init, fun _ => SkidRegs.reset_wf, fun m => by
    unfold Egress.held
    split <;> rfl⟩

/-- The beat of a port that an edge takes. -/
theorem ofSource_taken {n : Nat} {β : Type} (s : Switch n β) (offers : Fin n → Option β) (m : Fin n) :
    ofSource m (s.taken offers).toList = (if s.sTready m then offers m else none).toList := by
  unfold Switch.taken Switch.sTready
  cases s.reg.sAxisTreadyReg with
  | false => simp
  | true =>
      cases s.port with
      | none => simp
      | some k =>
          by_cases hk : k = m
          · subst hk
            cases hx : offers k <;> simp [ofSource, hx]
          · cases hx : offers k <;> simp [ofSource, hk, hx]

theorem routed_clock {t : EgressTally} (h : t.Routed) (i : EgressIn) : (t.clock i).Routed := by
  refine ⟨?_, fun k => SkidRegs.edge_wf (h.regs k) _ _, fun m => ?_⟩
  · rw [switchTally_clock]
    exact SwitchTally.kept_clock h.kept _
  · show t.given m ++ (t.state.handed i m).toList =
      ofSource m (t.taken ++ (t.state.switch.taken (t.state.offers i)).toList) ++ (t.state.edge i).held m
    rw [ofSource_append, ofSource_taken, h.given m, List.append_assoc, List.append_assoc]
    refine congrArg (ofSource m t.taken ++ ·) ?_
    by_cases hm : m.val < 2
    · have hreg := SkidRegs.edge_items (h.regs ⟨m.val, hm⟩) (Egress.txDecoupled i ⟨m.val, hm⟩)
        (t.state.switch.sTready m)
      simp only [Egress.held, Egress.handed, Egress.offers, dif_pos hm]
      exact hreg.symm
    · simp [Egress.held, Egress.handed, Egress.offers, hm]

theorem routed_run (is : List EgressIn) : (run clock init is).Routed :=
  run_all (P := Routed) (fun _ i h => routed_clock h i) routed_init is

theorem sent_prefix (t : EgressTally) (is : List EgressIn) : t.sent <+: (run clock t is).sent := by
  induction is generalizing t with
  | nil => exact List.prefix_rfl
  | cons i is ih => exact (List.prefix_append ..).trans (ih (t.clock i))

end EgressTally

/-! ## 3. The sender inside -/

/-- Pins with an offer that is the beat the sender takes, and another status. -/
def seen (s : Sender) (p : SenderIn) (w : Option (BitVec 64)) : SenderIn :=
  { p with rx := s.taken p, txStatus := w }

theorem taken_seen (s : Sender) (p : SenderIn) (w : Option (BitVec 64)) : s.taken (seen s p w) = s.taken p := by
  show (if s.rxTready p then if s.rxTready p then p.rx else none else none) = if s.rxTready p then p.rx else none
  cases s.rxTready p <;> rfl

/-- A sender sees of an offer what it takes, and of a status its error bit. -/
theorem clock_seen (s : Sender) (p : SenderIn) {w : Option (BitVec 64)}
    (hw : w.map statusError = p.txStatus.map statusError) : s.clock (seen s p w) = s.clock p := by
  have hedge : s.edge (seen s p w) = s.edge p := by
    unfold Sender.edge
    rw [taken_seen]
    show Sender.mk (s.status.slowEdge p.status (w.map statusError) (s.statusTready p)) _ _ _ _ = _
    rw [hw]
    rfl
  unfold Sender.clock
  rw [hedge]
  rfl

/-- The link is at the tally: its sender is the one inside, and it has shown the same. -/
structure Matches (fs : List Frame) (t : EgressTally) (l : Link) : Prop where
  sender : l.sender = t.state.sender
  owed : l.owed = List.replicate t.state.owed 0
  statuses : ∀ w ∈ l.statuses, w = 0
  log : l.log = t.log
  story : Tcp.Story fs l

/-- What the link is asked at an edge. -/
def linkIn (y : Egress) (i : EgressIn) : LinkIn where
  offer := (y.sender.taken (y.pins i)).isSome
  answer := i.answer
  metadataTready := i.metadataTready
  dataTready := i.dataTready
  status := i.status
  payload := i.payload
  metadata := i.metadata

section Follow

variable {fs : List Frame} {t : EgressTally} {l : Link} {i : EgressIn} {todo : List SendBeat}

theorem linkIn_pins (h : Matches fs t l)
    (htodo : l.todo = (t.state.sender.taken (t.state.pins i)).toList ++ todo) :
    l.pins (linkIn t.state i) = seen t.state.sender (t.state.pins i)
      (if i.answer && decide (0 < t.state.owed) then some 0 else none) := by
  have hrx : (if (t.state.sender.taken (t.state.pins i)).isSome then l.todo.head? else none) =
      t.state.sender.taken (t.state.pins i) := by
    rw [htodo]
    cases t.state.sender.taken (t.state.pins i) <;> rfl
  have hstatus : (if i.answer then l.owed.head? else none) =
      if i.answer && decide (0 < t.state.owed) then some 0 else none := by
    rw [h.owed]
    cases i.answer with
    | false => rfl
    | true => cases t.state.owed <;> rfl
  unfold Link.pins linkIn
  rw [hrx, hstatus]
  rfl

theorem taken_follow (h : Matches fs t l)
    (htodo : l.todo = (t.state.sender.taken (t.state.pins i)).toList ++ todo) :
    l.taken (linkIn t.state i) = t.state.sender.taken (t.state.pins i) := by
  unfold Link.taken
  rw [linkIn_pins h htodo, h.sender, taken_seen]

theorem announced_follow (h : Matches fs t l)
    (htodo : l.todo = (t.state.sender.taken (t.state.pins i)).toList ++ todo) :
    l.announced (linkIn t.state i) = t.state.announced i := by
  unfold Link.announced
  rw [linkIn_pins h htodo, h.sender]
  rfl

theorem accepted_follow (h : Matches fs t l)
    (htodo : l.todo = (t.state.sender.taken (t.state.pins i)).toList ++ todo) :
    l.accepted (linkIn t.state i) = (t.state.accepted i).map fun _ => 0 := by
  unfold Link.accepted
  rw [linkIn_pins h htodo, h.sender]
  show (if t.state.sender.status.room i.status then
      if i.answer && decide (0 < t.state.owed) then some 0 else none else none) =
    Option.map (fun _ => 0) (if t.state.sender.status.room i.status then
      if i.answer && decide (0 < t.state.owed) then some i.verdict else none else none)
  cases t.state.sender.status.room i.status <;> cases i.answer && decide (0 < t.state.owed) <;> rfl

/-- What the stack owes. -/
theorem owed_follow (h : Matches fs t l)
    (htodo : l.todo = (t.state.sender.taken (t.state.pins i)).toList ++ todo) :
    (l.step (linkIn t.state i)).owed = List.replicate (t.state.edge i).owed 0 := by
  have haccepted : (if (l.accepted (linkIn t.state i)).isSome then l.owed.tail else l.owed) =
      List.replicate (t.state.owed - (t.state.accepted i).toList.length) 0 := by
    rw [accepted_follow h htodo, h.owed]
    cases t.state.accepted i with
    | none => rfl
    | some w => exact List.tail_replicate ..
  have hdue : l.due (linkIn t.state i) = List.replicate (t.state.announced i).toList.length 0 := by
    unfold Link.due
    rw [announced_follow h htodo]
    cases hm : t.state.announced i with
    | none => rfl
    | some m =>
        obtain ⟨w, ws, hws⟩ := statuses_of_announced h.story ((announced_follow h htodo).trans hm)
        rw [hws, h.statuses w (by rw [hws]; exact List.mem_cons_self ..)]
        rfl
  show (if (l.accepted (linkIn t.state i)).isSome then l.owed.tail else l.owed) ++ l.due (linkIn t.state i) =
    List.replicate (t.state.owed - (t.state.accepted i).toList.length + (t.state.announced i).toList.length) 0
  rw [haccepted, hdue, List.replicate_append_replicate]

/-- **One edge**, with the status of a healthy connection. -/
theorem follow_edge (h : Matches fs t l) (hok : statusError i.verdict = false)
    (htodo : l.todo = (t.state.sender.taken (t.state.pins i)).toList ++ todo) :
    Matches fs (t.clock i) (l.step (linkIn t.state i)) ∧ (l.step (linkIn t.state i)).todo = todo := by
  have hpins := linkIn_pins h htodo
  have hsender : l.sender.clock (l.pins (linkIn t.state i)) = t.state.sender.clock (t.state.pins i) := by
    rw [hpins, h.sender]
    refine clock_seen _ _ ?_
    show Option.map statusError (if i.answer && decide (0 < t.state.owed) then some 0 else none) =
      Option.map statusError (if i.answer && decide (0 < t.state.owed) then some i.verdict else none)
    cases i.answer && decide (0 < t.state.owed) with
    | false => rfl
    | true =>
        show some (statusError 0) = some (statusError i.verdict)
        rw [hok]
        rfl
  have hstatuses : ∀ w ∈ (l.step (linkIn t.state i)).statuses, w = 0 := by
    show ∀ w ∈ (if (l.announced (linkIn t.state i)).isSome then l.statuses.tail else l.statuses), w = 0
    split
    · exact fun w hw => h.statuses w (List.mem_of_mem_tail hw)
    · exact h.statuses
  have hlog : l.log ++ l.shows (linkIn t.state i) = t.log ++ t.shows i := by
    unfold Link.shows EgressTally.shows
    rw [hpins, h.sender, h.log]
    rfl
  have hleft := taken_todo l (linkIn t.state i)
  rw [taken_follow h htodo, htodo] at hleft
  exact ⟨⟨hsender, owed_follow h htodo, hstatuses, hlog, story_step h.story _⟩, List.append_cancel_left hleft⟩

/-- **A run**: the link is given what the switch is going to send. -/
theorem follow (h : Matches fs t l) (is : List EgressIn) (hok : ∀ i ∈ is, statusError i.verdict = false)
    (hsent : t.sent ++ l.todo = (run EgressTally.clock t is).sent ++ todo) :
    ∃ l', Matches fs (run EgressTally.clock t is) l' ∧ l'.todo = todo := by
  induction is generalizing t l with
  | nil => exact ⟨l, h, List.append_cancel_left hsent⟩
  | cons i is ih =>
      rw [run_cons] at hsent ⊢
      obtain ⟨more, hmore⟩ := EgressTally.sent_prefix (t.clock i) is
      have htodo : l.todo = (t.state.sender.taken (t.state.pins i)).toList ++ (more ++ todo) := by
        have hnext : (t.clock i).sent = t.sent ++ (t.state.sender.taken (t.state.pins i)).toList := rfl
        rw [← hmore, hnext, List.append_assoc, List.append_assoc] at hsent
        exact List.append_cancel_left hsent
      obtain ⟨hmatch, hrest⟩ := follow_edge h (hok i (List.mem_cons_self ..)) htodo
      refine ih hmatch (fun j hj => hok j (List.mem_cons_of_mem i hj)) ?_
      rw [hrest, ← hmore, List.append_assoc]

end Follow

/-! ## 4. The frames of many sources -/

/-- A whole frame of at most 512 beats is one that the sender can hold. -/
theorem exists_frame {k : Fin 3} {bs : List SendBeat} (hw : Whole (·.tlast) (k, bs)) (hlen : bs.length ≤ 512) :
    ∃ f : Frame, f.status = 0 ∧ f.beats = bs := by
  obtain ⟨body, last, rfl⟩ := List.eq_nil_or_concat bs |>.resolve_left hw.nonempty
  rw [List.concat_eq_append] at hw hlen
  have hbody : ∀ b ∈ body, b.tlast = false := by
    have h := hw.unmarked
    rwa [List.dropLast_concat] at h
  have hlast : last.tlast = true := hw.marked last (by rw [List.getLast?_concat]; rfl)
  have hshort : (body.map fun b => (b.txMeta, b.data)).length < 512 := by
    rw [List.length_map]
    rw [List.length_append, List.length_singleton] at hlen
    omega
  refine ⟨⟨body.map fun b => (b.txMeta, b.data), (last.txMeta, last.data), 0, hshort⟩, rfl, ?_⟩
  rw [List.concat_eq_append, Frame.beats, List.map_map]
  congr 1
  · refine (List.map_congr_left fun b hb => ?_).trans (List.map_id body)
    show SendBeat.mk b.txMeta false b.data = b
    rw [← hbody b hb]
  · rw [← hlast]

theorem exists_frames {fs : List (Fin 3 × List SendBeat)}
    (h : ∀ f ∈ fs, Whole (·.tlast) f ∧ f.2.length ≤ 512) :
    ∃ gs : List (Fin 3 × Frame), (∀ g ∈ gs, g.2.status = 0) ∧ fs = gs.map fun g => (g.1, g.2.beats) := by
  induction fs with
  | nil => exact ⟨[], by simp, rfl⟩
  | cons f fs ih =>
      obtain ⟨gs, hgs, rfl⟩ := ih fun g hg => h g (List.mem_cons_of_mem f hg)
      obtain ⟨hw, hlen⟩ := h f (List.mem_cons_self ..)
      obtain ⟨g, hg, hbeats⟩ := exists_frame hw hlen
      refine ⟨(f.1, g) :: gs, fun x hx => ?_, ?_⟩
      · rcases List.mem_cons.mp hx with rfl | hx
        · exact hg
        · exact hgs x hx
      · rw [List.map_cons, hbeats]

/-- **What has crossed is of frames whose last beat has come in.** -/
theorem log_of_complete {fs : List Frame} {d : Frame} {l : Link} (h : Tcp.Story (fs ++ [d]) l)
    (hopen : metas l.todo ≠ []) : l.log <+: fs.flatMap (·.crossings) := by
  have hrest : ∀ {rest held}, Tcp.Ahead l rest held → rest ≠ [] := by
    intro rest held hahead hnil
    have hmeta := hahead.metadata
    rw [hnil] at hmeta
    exact hopen (List.append_eq_nil_iff.mp hmeta).2
  have hcut : ∀ {begun rest : List Frame}, fs ++ [d] = begun ++ rest → rest ≠ [] →
      begun.flatMap (·.crossings) <+: fs.flatMap (·.crossings) := by
    intro begun rest hsplit hne
    obtain ⟨rest', d', rfl⟩ := List.eq_nil_or_concat rest |>.resolve_left hne
    rw [List.concat_eq_append, ← List.append_assoc] at hsplit
    rw [(List.append_inj' hsplit rfl).1, List.flatMap_append]
    exact List.prefix_append ..
  cases h with
  | between done rest split clean active answers ahead log =>
      rw [log]
      exact hcut split (hrest ahead)
  | inside done rest f sent left held split clean active words ne items answers consumed ahead log =>
      have hbegun : fs ++ [d] = (done ++ [f]) ++ rest := by rw [split, List.append_assoc]; rfl
      refine List.IsPrefix.trans ?_ (hcut hbegun (hrest ahead))
      rw [log, List.flatMap_append, List.flatMap_singleton, Frame.crossings, words]
      refine (List.prefix_append_right_inj _).mpr ((List.prefix_cons_inj _).mpr ?_)
      exact traffic_begins f.failed sent left

section Split

variable {t : EgressTally} {fs : List (Fin 3 × List SendBeat)} {o : Option (Fin 3)} {rest : List SendBeat}

/-- What a source handed over holds its frames. -/
theorem given_splits (h : t.Routed) (hsplit : Splits t.taken fs rest o) (m : Fin 3) :
    t.given m = (fs.filter (·.1 = m)).flatMap (·.2) ++ openOf o rest m ++ t.state.held m := by
  rw [h.given m, hsplit.ofSource m]

theorem frame_within (h : t.Routed) (hsplit : Splits t.taken fs rest o) {f : Fin 3 × List SendBeat}
    (hf : f ∈ fs) : f.2 <:+: t.given f.1 := by
  have hmem : f ∈ fs.filter (·.1 = f.1) := by simpa using hf
  obtain ⟨xs, ys, hxs⟩ := List.append_of_mem hmem
  rw [given_splits h hsplit, hxs, List.flatMap_append, List.flatMap_cons]
  refine ⟨xs.flatMap (·.2), ys.flatMap (·.2) ++ openOf o rest f.1 ++ t.state.held f.1, ?_⟩
  simp

/-- The open frame is shorter than one that the sender can hold. -/
theorem open_short (h : t.Routed) (hsplit : Splits t.taken fs rest o) (hrest : ∀ b ∈ rest, b.tlast = false)
    (hshort : ∀ m, Short (·.tlast) 512 (t.given m)) : rest.length < 512 := by
  cases o with
  | none =>
      obtain ⟨rfl, -⟩ := hsplit
      decide
  | some k =>
      refine (hshort k).unmarked ?_ hrest
      rw [given_splits h hsplit, openOf, if_pos rfl]
      exact List.infix_append ..

theorem beats_splits {gs : List (Fin 3 × Frame)}
    (hsplit : Splits t.taken (gs.map fun g => (g.1, g.2.beats)) rest o) :
    t.taken.map Prod.snd = (gs.map (·.2)).flatMap (·.beats) ++ rest := by
  have hitems : ((gs.map fun g => (g.1, g.2.beats)).flatMap items).map Prod.snd =
      (gs.map (·.2)).flatMap (·.beats) := by
    simp [items, List.map_flatMap, List.flatMap_map]
  cases o with
  | none =>
      obtain ⟨rfl, hl⟩ := hsplit
      rw [hl, hitems, List.append_nil]
  | some k =>
      rw [hsplit.2, List.map_append, hitems]
      simp

end Split

theorem matches_init {fs : List Frame} (h : ∀ f ∈ fs, f.status = 0) : Matches fs .init (.init fs) := by
  refine ⟨rfl, rfl, fun w hw => ?_, rfl, story_init fs⟩
  obtain ⟨f, hf, rfl⟩ := List.mem_map.mp hw
  exact h f hf

/-- **Many sources, whole transmissions.** In every run from reset, whatever the slots and the controller
    drive, with any decoupling and any stalls, against a stack that accepts what it is sent with an OK
    status for every frame, and with no frame above 512 beats: what each source handed over is frames,
    the part of one frame that is open at the switch, and what its register holds, in order; and what
    has crossed to the stack is the beginning of what has to cross for these frames, one frame after the
    other, none of them with a beat of another source. -/
theorem egress_frames (is : List EgressIn) (hok : ∀ i ∈ is, statusError i.verdict = false)
    (hshort : ∀ m, Short (·.tlast) 512 ((run EgressTally.clock .init is).given m)) :
    let t := run EgressTally.clock .init is
    ∃ (fs : List (Fin 3 × Frame)) (o : Option (Fin 3)) (rest : List SendBeat),
      (∀ f ∈ fs, f.2.failed = false) ∧ (∀ b ∈ rest, b.tlast = false) ∧
        (∀ m, t.given m =
          (fs.filter (·.1 = m)).flatMap (·.2.beats) ++ openOf o rest m ++ t.state.held m) ∧
        t.log <+: fs.flatMap (·.2.crossings) := by
  intro t
  have hrouted : t.Routed := EgressTally.routed_run is
  obtain ⟨o, hframes, -⟩ := hrouted.kept.frames
  obtain ⟨fs, rest, hfs, hrest, hsplit⟩ : ∃ fs rest, (∀ f ∈ fs, Whole (·.tlast) f) ∧
      (∀ b ∈ rest, b.tlast = false) ∧ Splits t.taken fs rest o := hframes.whole
  have hlen : ∀ f ∈ fs, Whole (·.tlast) f ∧ f.2.length ≤ 512 := fun f hf =>
    ⟨hfs f hf, (hfs f hf).length_le (hshort f.1) (frame_within hrouted hsplit hf)⟩
  obtain ⟨gs, hgs, rfl⟩ := exists_frames hlen
  -- the open frame gets an end of its own, which never comes in
  obtain ⟨d, hd, hdbeats⟩ : ∃ d : Frame, d.status = 0 ∧ d.beats = rest ++ [⟨0, true, 0⟩] := by
    refine exists_frame (k := 0) ⟨by simp, by simp, by simpa using hrest⟩ ?_
    rw [List.length_append, List.length_singleton]
    exact open_short hrouted hsplit hrest hshort
  have hstart : Matches (gs.map (·.2) ++ [d]) .init (.init (gs.map (·.2) ++ [d])) := by
    refine matches_init fun f hf => ?_
    rcases List.mem_append.mp hf with hf | hf
    · obtain ⟨g, hg, rfl⟩ := List.mem_map.mp hf
      exact hgs g hg
    · rw [List.mem_singleton.mp hf]
      exact hd
  have hsent : EgressTally.init.sent ++ (Link.init (gs.map (·.2) ++ [d])).todo =
      t.sent ++ (t.state.switch.reg.items ++ [⟨0, true, 0⟩]) := by
    have hkept : t.taken.map Prod.snd = t.sent ++ t.state.switch.reg.items := hrouted.kept.items
    show (gs.map (·.2) ++ [d]).flatMap (·.beats) = _
    rw [← List.append_assoc, ← hkept, beats_splits hsplit, List.flatMap_append, List.flatMap_singleton,
      hdbeats, List.append_assoc]
  obtain ⟨l, hl, hleft⟩ := follow hstart is hok hsent
  refine ⟨gs, o, rest, fun g hg => ?_, hrest, fun m => ?_, ?_⟩
  · rw [Frame.failed, hgs g hg]
    rfl
  · rw [given_splits hrouted hsplit m, List.filter_map, List.flatMap_map]
    rfl
  · have hlog := log_of_complete hl.story (by rw [hleft, metas_append]; simp [metas])
    rw [hl.log, List.flatMap_map] at hlog
    exact hlog

/-- Nobody stalls, and the stack answers with an OK status; C00 and the controller drive what is given. -/
def EgressIn.go (slot reconf : Option SendBeat) : EgressIn where
  slotTx k := if k = 0 then slot else none
  slotDecouple _ := false
  reconfTx := reconf
  answer := true
  verdict := 0
  metadataTready := true
  dataTready := true
  status := ⟨true, true⟩
  payload := ⟨true, true⟩
  metadata := ⟨true, true⟩

/-- A frame of two beats of C00, and a line of the controller that waits behind it. -/
def egressRun : List EgressIn :=
  List.replicate 2 (.go none none) ++ [.go (some ⟨7, false, 1⟩) none, .go (some ⟨7, true, 2⟩) none] ++
    List.replicate 12 (.go none (some ⟨9, true, 3⟩))

theorem egress_frames_two_sources :
    ∃ (fs : List (Fin 3 × Frame)) (o : Option (Fin 3)) (rest : List SendBeat),
      (∀ f ∈ fs, f.2.failed = false) ∧ (∀ b ∈ rest, b.tlast = false) ∧
        (∀ m, (run EgressTally.clock .init egressRun).given m = (fs.filter (·.1 = m)).flatMap (·.2.beats) ++
          openOf o rest m ++ (run EgressTally.clock .init egressRun).state.held m) ∧
        (run EgressTally.clock .init egressRun).log <+: fs.flatMap (·.2.crossings) :=
  egress_frames egressRun (by decide) fun m => short_of_length (by revert m; decide +kernel)

end Frac.PktLogic
