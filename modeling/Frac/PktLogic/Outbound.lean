/-
  File:      Frac/PktLogic/Outbound.lean
  Subject:   From a controller packet to the TCP stack: dispatcher, scheduler, branch and controller
             (Branch.lean) with the way out behind them (Egress.lean), the controller's own
             `slot_decouple` on the slots, and the controller port of the switch as the only thing
             that makes its response wait.

  * `Outbound.clock` -- one clock edge of both; `txBeat` -- a response as the switch gets it;
  * `Joined` -- what the controller has answered is what its port has handed over; `joined_run`;
  * **`answers_transmitted`** -- each controller packet that is answered is one transmission of one
    beat, announced as 64 bytes for the packet's session, in the order of the packets.
-/
import Frac.PktLogic.Egress
import Frac.PktLogic.Packets

namespace Frac.PktLogic

open Clocked Tcp Frames Reconf Reassembly

variable {n : Nat}

/-! ## 1. Both halves -/

/-- `{reconf_tx_meta, reconf_tx_tlast, reconf_tx_tdata}`. -/
def txBeat (m : TxMeta) (r : Resp) : SendBeat := ⟨m.length ++ m.session, r.tlast, r.tdata⟩

section Run

variable [FifoKind]

/-- `pkt_logic` with its two slots outside, and the sender. -/
structure Outbound (n : Nat) where
  feed : Feed n 2
  egress : EgressTally

/-- The input pins at one clock edge: those of the feed, what the slots drive, and the stack's. The pins
    of the controller's response port and of `slot_decouple` come from inside. -/
structure OutboundIn where
  feed : FeedIn
  egress : EgressIn

namespace Outbound

def init (n : Nat) (mem : Mem 33) (lines : List (DispLine Unit)) : Outbound n :=
  ⟨Feed.init n 2 mem lines, .init⟩

variable (y : Outbound n) (i : OutboundIn)

/-- `reconf_tx_tready`. -/
def reconfTxTready : Bool := y.egress.state.switch.sTready 2

def feedIn : FeedIn := { i.feed with pins := { i.feed.pins with mAxisTready := y.reconfTxTready } }

/-- `reconf_tx_tdata` with its metadata, where `reconf_tx_tvalid` is high. -/
def reconfTx : Option SendBeat :=
  if y.feed.kernel.sys.ctrl.mAxisTvalid then
    some (txBeat y.feed.kernel.flags.txMeta y.feed.kernel.sys.ctrl.response)
  else none

def egressIn : EgressIn :=
  { i.egress with slotDecouple := y.feed.kernel.sys.ctrl.slotDecouple, reconfTx := y.reconfTx }

/-- **One clock edge** with `rst` low. -/
def clock : Outbound n := ⟨y.feed.clock (y.feedIn i), y.egress.clock (y.egressIn i)⟩

/-- The dispatcher's FIFO does not overflow, and a status is an OK status. -/
def Fits : Prop := y.feed.Fits ∧ statusError i.egress.verdict = false

instance : Decidable (y.Fits i) := inferInstanceAs (Decidable (_ ∧ _))

/-! ## 2. The controller port -/

/-- The feed and the way out make runs of their own, and agree on what crosses between them. -/
structure Joined (mem : Mem 33) (lines : List (DispLine Unit)) (y : Outbound n) : Prop where
  feed : Reachable Feed.clock (fun z _ => z.Fits) (Feed.init n 2 mem lines) y.feed
  egress : ∃ is : List EgressIn, (∀ i ∈ is, statusError i.verdict = false) ∧ y.egress = run EgressTally.clock .init is
  signals : Signals y.feed.kernel.sys.ctrl
  framed : Framed y.feed.kernel.sys.ctrl
  answered : y.egress.given 2 = y.feed.answered.map fun a => txBeat a.1 a.2
  marked : ∀ a ∈ y.feed.answered, a.2.tlast = true

theorem joined_init (mem : Mem 33) (lines : List (DispLine Unit)) : (init n mem lines).Joined mem lines where
  feed := .start
  egress := ⟨[], by simp, rfl⟩
  signals := signals_reset
  framed := fun e => by cases e
  answered := rfl
  marked := fun a ha => by cases ha

/-- What the controller answers at an edge is what its port hands over. -/
theorem answer_handed (y : Outbound n) (i : OutboundIn) :
    (y.egress.state.handed (y.egressIn i) 2).toList =
      (y.feed.kernel.answerTaken (y.feed.kernelIn (y.feedIn i))).map fun a => txBeat a.1 a.2 := by
  have hhanded : y.egress.state.handed (y.egressIn i) 2 = if y.reconfTxTready then y.reconfTx else none := rfl
  have hanswer : y.feed.kernel.answerTaken (y.feed.kernelIn (y.feedIn i)) =
      (if y.feed.kernel.sys.ctrl.mAxisTvalid && y.reconfTxTready then [y.feed.kernel.sys.ctrl.response] else []).map
        fun r => (y.feed.kernel.flags.txMeta, r) := rfl
  rw [hhanded, hanswer, reconfTx]
  cases y.reconfTxTready <;> cases y.feed.kernel.sys.ctrl.mAxisTvalid <;> rfl

theorem joined_clock {mem : Mem 33} {lines : List (DispLine Unit)} {y : Outbound n} (h : y.Joined mem lines)
    {i : OutboundIn} (hfits : y.Fits i) : (y.clock i).Joined mem lines := by
  obtain ⟨is, his, hrun⟩ := h.egress
  refine ⟨.edge _ _ h.feed hfits.1, ⟨is ++ [y.egressIn i], ?_, ?_⟩, ?_, ?_, ?_, ?_⟩
  · intro j hj
    rcases List.mem_append.mp hj with hj | hj
    · exact his j hj
    · rw [List.mem_singleton.mp hj]
      exact hfits.2
  · rw [run_append, ← hrun]
    rfl
  · exact signals_clock h.signals (y.feed.kernel.ctrlIn (y.feed.kernelIn (y.feedIn i)))
  · exact framed_clock h.framed (y.feed.kernel.ctrlIn (y.feed.kernelIn (y.feedIn i)))
  · show y.egress.given 2 ++ (y.egress.state.handed (y.egressIn i) 2).toList =
      (y.feed.answered ++ y.feed.kernel.answerTaken (y.feed.kernelIn (y.feedIn i))).map fun a => txBeat a.1 a.2
    rw [h.answered, answer_handed, List.map_append]
  · intro a ha
    rcases List.mem_append.mp ha with ha | ha
    · exact h.marked a ha
    · obtain ⟨r, hr, rfl⟩ := List.mem_map.mp ha
      unfold responseTaken at hr
      split at hr
      · next hv =>
          rw [List.mem_singleton.mp hr]
          have hvalid := ((Bool.and_eq_true ..).mp hv).1
          rw [h.signals.mAxisTvalid] at hvalid
          exact congrArg Resp.tlast (h.framed hvalid)
      · cases hr

theorem joined_run {mem : Mem 33} {lines : List (DispLine Unit)} {is : List OutboundIn}
    (h : Meets clock Fits (init n mem lines) is) : (run clock (init n mem lines) is).Joined mem lines :=
  run_meets (P := Joined mem lines) (fun _ _ hy hi => joined_clock hy hi) (joined_init mem lines) is h

end Outbound

/-! ## 3. The transmissions -/

omit [FifoKind] in
/-- Beats that all have `tlast` are the frames of one beat. -/
theorem beats_single {fs : List Frame} (h : ∀ b ∈ fs.flatMap (·.beats), b.tlast = true) :
    fs.map (·.beats) = (fs.flatMap (·.beats)).map fun b => [b] := by
  induction fs with
  | nil => rfl
  | cons f fs ih =>
      have hbody : f.body = [] := by
        refine List.eq_nil_iff_forall_not_mem.mpr fun c hc => ?_
        have hmem : (⟨c.1, false, c.2⟩ : SendBeat) ∈ (f :: fs).flatMap (·.beats) := by
          simp only [List.flatMap_cons, Frame.beats, List.mem_append, List.mem_map]
          exact Or.inl (Or.inl ⟨c, hc, rfl⟩)
        exact Bool.noConfusion (h _ hmem)
      have hbeats : f.beats = [⟨f.last.1, true, f.last.2⟩] := by rw [Frame.beats, hbody]; rfl
      rw [List.map_cons, List.flatMap_cons, List.map_append, hbeats, ih]
      · rfl
      · intro b hb
        exact h b (by rw [List.flatMap_cons]; exact List.mem_append_right _ hb)

/-- **Each controller packet is one transmission.** Packets that are complete requests arrive in any
    order, with any gaps, and the slots drive what they like, but for frames above 512 beats; the
    dispatcher's FIFO does not overflow, and the stack answers with OK statuses, whenever it does. What
    has crossed to the stack is the beginning of what has to cross for whole frames, each of one slot or
    of the controller. The controller's are, in the order of the packets, one for each packet that it has
    answered, of the one line of the response it gave, announced as 64 bytes for the packet's own session,
    and they are all that its port has handed over; a slot's are what its register was given, but for a
    frame that is open and what the register holds. -/
theorem answers_transmitted {mem : Mem 33} {ps : List (Packet 2)} (is : List OutboundIn)
    (hfits : Meets Outbound.clock Outbound.Fits (.init n mem (ps.flatMap Packet.lines)) is)
    (hshort : ∀ k : Fin 2, Short (·.tlast) 512
      ((run Outbound.clock (.init n mem (ps.flatMap Packet.lines)) is).egress.given k.castSucc)) :
    let y := run Outbound.clock (.init n mem (ps.flatMap Packet.lines)) is
    ∃ (vs : List (Visit 2)) (fs : List (Fin 3 × Frame)) (o : Option (Fin 3)) (rest : List SendBeat),
      vs.map (·.packet) <+: controllers ps ∧ y.feed.answered = vs.map Visit.answer ∧
        (fs.filter (·.1 = 2)).map (·.2.beats) = vs.map (fun v => [txBeat ⟨64, v.packet.session⟩ v.resp]) ∧
        y.egress.given 2 = (fs.filter (·.1 = 2)).flatMap (·.2.beats) ∧
        (∀ k : Fin 2, y.egress.given k.castSucc = (fs.filter (·.1 = k.castSucc)).flatMap (·.2.beats) ++
          openOf o rest k.castSucc ++ y.egress.state.held k.castSucc) ∧
        (∀ f ∈ fs, f.2.failed = false) ∧ y.egress.log <+: fs.flatMap (·.2.crossings) := by
  intro y
  have hjoined : y.Joined mem (ps.flatMap Packet.lines) := Outbound.joined_run hfits
  obtain ⟨vs, cur, hpackets, hanswers, -⟩ := packets_answered_once hjoined.feed
  obtain ⟨es, hok, hrun⟩ := hjoined.egress
  have hmarked : ∀ b ∈ y.egress.given 2, b.tlast = true := by
    rw [hjoined.answered]
    intro b hb
    obtain ⟨a, ha, rfl⟩ := List.mem_map.mp hb
    exact hjoined.marked a ha
  have hall : ∀ m, Short (·.tlast) 512 ((run EgressTally.clock .init es).given m) := by
    rw [← hrun]
    intro m
    cases m using Fin.lastCases with
    | last => exact short_of_marked (by decide) hmarked
    | cast k => exact hshort k
  obtain ⟨fs, o, rest, hfs, hrest, hgiven, hlog⟩ := egress_frames es hok hall
  rw [← hrun] at hgiven hlog
  have hown := hgiven 2
  -- no frame of the controller is open, since each of its beats ends one
  have hopen : openOf o rest (2 : Fin 3) = [] := by
    refine List.eq_nil_iff_forall_not_mem.mpr fun b hb => ?_
    have hmem : b ∈ y.egress.given 2 := by
      rw [hown]
      exact List.mem_append_left _ (List.mem_append_right _ hb)
    have hbrest : b ∈ rest := by
      unfold openOf at hb
      split at hb
      · exact hb
      · cases hb
    exact Bool.noConfusion ((hmarked b hmem).symm.trans (hrest b hbrest))
  have hheld : y.egress.state.held 2 = [] := rfl
  have hall2 : y.egress.given 2 = (fs.filter (·.1 = 2)).flatMap (·.2.beats) := by
    rw [hown, hopen, hheld, List.append_nil, List.append_nil]
  have hbeats : ((fs.filter (·.1 = 2)).map (·.2)).flatMap (·.beats) = y.egress.given 2 := by
    rw [hall2, List.flatMap_map]
  have hsingle := @beats_single ((fs.filter (·.1 = 2)).map (·.2)) (by rw [hbeats]; exact hmarked)
  rw [hbeats, hjoined.answered, hanswers, List.map_map, List.map_map, List.map_map] at hsingle
  exact ⟨vs, fs, o, rest, (List.prefix_append ..).trans hpackets, hanswers, hsingle, hall2,
    fun k => hgiven k.castSucc, hfs, hlog⟩

end Run

section Source

attribute [local instance] axisDataFifos

/-- Everybody is willing, the slots are silent. -/
def OutboundIn.go (send : Bool) : OutboundIn := ⟨⟨send, true, In.low⟩, .go none none⟩

theorem answers_transmitted_surplus :
    let y := run Outbound.clock (.init 2 countingMem ([surplusPacket].flatMap Packet.lines))
      (List.replicate 20 (.go true))
    y.egress.log.map (·.metadata) = [some ((64 : BitVec 16) ++ (7 : BitVec 16)), none] ∧
      ∃ (vs : List (Visit 2)) (fs : List (Fin 3 × Frame)) (o : Option (Fin 3)) (rest : List SendBeat),
        vs.map (·.packet) <+: controllers [surplusPacket] ∧ y.feed.answered = vs.map Visit.answer ∧
          (fs.filter (·.1 = 2)).map (·.2.beats) = vs.map (fun v => [txBeat ⟨64, v.packet.session⟩ v.resp]) ∧
          y.egress.given 2 = (fs.filter (·.1 = 2)).flatMap (·.2.beats) ∧
          (∀ k : Fin 2, y.egress.given k.castSucc = (fs.filter (·.1 = k.castSucc)).flatMap (·.2.beats) ++
            openOf o rest k.castSucc ++ y.egress.state.held k.castSucc) ∧
          (∀ f ∈ fs, f.2.failed = false) ∧ y.egress.log <+: fs.flatMap (·.2.crossings) :=
  ⟨by decide +kernel, answers_transmitted (List.replicate 20 (.go true)) (by decide +kernel)
    fun k => short_of_length (by revert k; decide +kernel)⟩

end Source

end Frac.PktLogic
