/-
  File:      Frac/Reconf/Isolation.lean
  Subject:   The slot under reconfiguration: what holds of the active slot, of its decouple bit and
             of the cycle counter and PRERROR latch while a `RECONF_ICAP` command runs, and what
             is left of them when it is over.

  * `move_reconf_cases` -- a move starts a reconfiguration, finishes one, or leaves its registers
    to `latch`;
  * `ReconfInv` -- the invariant of a running reconfiguration (`reconfInv_reachable`);
  * `reconf_slot_isolated` -- the running command's slot is decoupled, and nothing passes its
    decoupler pair;
  * `idle_clean` -- in runs whose reconfiguration reads all succeed, an idle controller has no
    active reconfiguration and no decoupled slot; `idle_not_clean_after_abort` is the other kind.
-/
import Frac.Reconf.System

namespace Frac.Reconf

open Clocked

variable {slotCount : Nat}

/-! ## 1. Moves, seen from the reconfiguration registers -/

/-- The `STATE_RECONF_*` states. -/
def St.reconf : St → Bool
  | .reconfAddr | .reconfData | .reconfStream | .reconfWaitDone => true
  | _ => false

theorem St.busy_of_reconf {t : St} (h : t.reconf = true) : t.busy = true := by
  cases t <;> first | rfl | cases h

/-- The edge leaves the registers of a reconfiguration to the statements before the `case`. -/
structure Keeps (s : Ctrl slotCount) (i : In) (s' : Ctrl slotCount) : Prop where
  activeSlotId : s'.activeSlotId = s.activeSlotId
  reconfActive : s'.reconfActive = s.reconfActive
  slotDecouple : s'.slotDecouple = s.slotDecouple
  reconfCycles : s'.reconfCycles = (latch s i).reconfCycles
  prDoneSeen : s'.icapPrDoneSeen = (latch s i).icapPrDoneSeen
  prErrSeen : s'.icapPrErrSeen = (latch s i).icapPrErrSeen

/-- The edge takes a bad beat of the reconfiguration stream: RRESP not OKAY, or RLAST missing. -/
def BadBeat (s : Ctrl slotCount) (i : In) : Prop :=
  s.state = .reconfData ∧ (i.rvalid && s.rready) = true ∧ ¬ (i.rresp = 0 ∧ i.rlast = true)

instance (s : Ctrl slotCount) (i : In) : Decidable (BadBeat s i) :=
  inferInstanceAs (Decidable (_ ∧ _ ∧ _))

/-- **A move starts a reconfiguration, finishes one, or leaves its registers alone**; it leaves the
    reconfiguration states by finishing or on a bad beat only. -/
theorem move_reconf_cases {s s' : Ctrl slotCount} {i : In} (hm : Move s i s') :
    (s.state = .idle ∧ (i.sAxisTvalid && s.sAxisTready) = true ∧
      Executes slotCount i.sAxisTdata opReconfIcap ∧
      s' = startReconf (idleRegs (latch s i) false) i.sAxisTdata) ∨
    (s.state = .reconfWaitDone ∧ ∃ e, s' = finishReconf s (latch s i) e ∧
      e = if i.icapPrErr || s.icapPrErrSeen then Err.icap else Err.ok) ∨
    (Keeps s i s' ∧ (s'.state.reconf = true → s.state.reconf = true) ∧
      (s.state.reconf = true → s'.state.reconf = true ∨
        BadBeat s i ∧ s'.state = .sendStatus)) := by
  cases hm
  case startReconf hs h hx => exact Or.inl ⟨hs, h, hx, rfl⟩
  case finish hs e he =>
    refine Or.inr (Or.inl ⟨hs, e, rfl, ?_⟩)
    rcases he with ⟨h1, rfl⟩ | ⟨h1, -, rfl⟩ <;> simp [h1]
  case errR hs h e he =>
    refine Or.inr (Or.inr ⟨⟨rfl, rfl, rfl, rfl, rfl, rfl⟩, fun hr => ?_, fun hr => Or.inr ?_⟩)
    · exact absurd hr Bool.false_ne_true
    refine ⟨⟨?_, h, ?_⟩, rfl⟩
    · rcases hs with e1 | e1 | e1 <;> simp_all [St.reconf]
    · rintro ⟨h1, h2⟩
      rcases he with ⟨h3, -⟩ | ⟨-, h3, -⟩
      · exact h3 h1
      · rw [h2] at h3; cases h3
  case holdAr addr hs h =>
    exact Or.inr (Or.inr ⟨⟨rfl, rfl, rfl, rfl, rfl, rfl⟩, id, Or.inl⟩)
  case takeAr addr next hs h =>
    refine Or.inr (Or.inr ⟨⟨rfl, rfl, rfl, rfl, rfl, rfl⟩, fun hr => ?_, fun hr => Or.inl ?_⟩) <;>
      rcases hs with ⟨e1, -, rfl⟩ | ⟨e1, -, rfl⟩ | ⟨e1, -, rfl⟩ <;> simp_all [St.reconf]
  case holdR hs h => exact Or.inr (Or.inr ⟨⟨rfl, rfl, rfl, rfl, rfl, rfl⟩, id, Or.inl⟩)
  case holdSend hs h => exact Or.inr (Or.inr ⟨⟨rfl, rfl, rfl, rfl, rfl, rfl⟩, id, Or.inl⟩)
  case takeSend hs h =>
    refine Or.inr (Or.inr ⟨⟨rfl, rfl, rfl, rfl, rfl, rfl⟩, fun hr => ?_, fun hr => ?_⟩)
    · exact absurd hr Bool.false_ne_true
    rcases hs with e1 | e1 <;> simp [e1, St.reconf] at hr
  all_goals
    refine Or.inr (Or.inr ⟨⟨rfl, rfl, rfl, rfl, rfl, rfl⟩, fun hr => ?_, fun hr => ?_⟩) <;>
      simp_all [St.reconf, startStatus, startQueryStatus, startWrite, startRead, readSendLine,
        idleRegs, latch]

/-! ## 2. The invariant of a running reconfiguration -/

/-- **While `RECONF_ICAP` runs**: the command that runs, its slot in `active_slot_id` and cut off,
    and cycle counter and PRERROR latch as the edges since its acceptance say. -/
structure ReconfInv (h : Hist) (s : Ctrl slotCount) : Prop where
  executes : Executes slotCount h.cmd opReconfIcap
  slot : s.activeSlotId = cmdSlotId h.cmd
  active : s.reconfActive = true
  decoupled : ∀ k : Fin slotCount, k.val = (cmdSlotId h.cmd).toNat → s.slotDecouple k = true
  cycles : s.reconfCycles = BitVec.ofNat 64 h.edges.length
  errSeen : s.icapPrErrSeen = h.edges.any (·.icapPrErr)

theorem reconfInv_start {s : Ctrl slotCount} {i : In} {mem : Mem 33}
    (hx : Executes slotCount i.sAxisTdata opReconfIcap) :
    ReconfInv (Hist.start i.sAxisTdata mem)
      (startReconf (idleRegs (latch s i) false) i.sAxisTdata) where
  executes := hx
  slot := rfl
  active := rfl
  decoupled _ hk := if_pos hk
  cycles := rfl
  errSeen := rfl

theorem reconfInv_keeps {h : Hist} {s s' : Ctrl slotCount} {i : In} (hI : ReconfInv h s)
    (hb : s.state.busy = true) (hk : Keeps s i s') : ReconfInv (h.next s i) s' where
  executes := hI.executes
  slot := hk.activeSlotId.trans hI.slot
  active := hk.reconfActive.trans hI.active
  decoupled k e := by rw [hk.slotDecouple]; exact hI.decoupled k e
  cycles := by
    rw [hk.reconfCycles]
    simp [latch, hI.active, hI.cycles, Hist.next, hb, BitVec.ofNat_add]
  errSeen := by
    rw [hk.prErrSeen]
    simp only [latch, hI.active, hI.errSeen, Hist.next, hb, if_true, List.any_append,
      Bool.true_and, List.any_cons, List.any_nil, Bool.or_false]
    cases i.icapPrErr <;> simp

theorem reconfInv_reachable {ok : Sys slotCount → In → Prop} {mem : Mem 33} {y : Sys slotCount}
    (hr : Reachable Sys.clock ok (Sys.init slotCount mem) y) {h : Hist} (hh : y.hist = some h)
    (hs : y.ctrl.state.reconf = true) : ReconfInv h y.ctrl := by
  refine hist_invariant (P := fun h y => y.ctrl.state.reconf = true → ReconfInv h y.ctrl)
    signals_reset (fun _ e => by cases e) ?_ ?_ hr hh hs
  · intro y i _ hrst ha hs
    obtain ⟨s', hs', hm⟩ := clock_move y hrst
    rw [hs'] at hs ⊢
    obtain ⟨hidle, -⟩ := accepts_iff.mp ha
    rcases move_reconf_cases hm with ⟨-, -, hx, rfl⟩ | ⟨hw, -⟩ | ⟨-, hback, -⟩
    · exact reconfInv_start hx
    · rw [hidle] at hw; cases hw
    · have := hback hs
      rw [hidle] at this; cases this
  · intro y i h _ _ hrst ha ih hs
    obtain ⟨s', hs', hm⟩ := clock_move y hrst
    rw [hs'] at hs ⊢
    rcases move_reconf_cases hm with ⟨hidle, hv, -, -⟩ | ⟨-, e, rfl, -⟩ | ⟨hk, hback, -⟩
    · rw [accepts_idle hidle, hv] at ha; cases ha
    · cases hs
    · exact reconfInv_keeps (ih (hback hs)) (St.busy_of_reconf (hback hs)) hk

/-- A busy controller has a history. -/
theorem hist_of_busy {ok : Sys slotCount → In → Prop} {mem : Mem 33} {y : Sys slotCount}
    (hr : Reachable Sys.clock ok (Sys.init slotCount mem) y) (hb : y.ctrl.state ≠ .idle) :
    ∃ h, y.hist = some h := by
  revert hb
  refine hr.invariant (P := fun y => y.ctrl.state ≠ .idle → ∃ h, y.hist = some h)
    (fun h => absurd rfl h) ?_
  intro y i ih _ hb
  show ∃ h, y.histNext i = some h
  cases hrst : i.rst with
  | true => simp [Ctrl.clock, hrst, Ctrl.reset] at hb
  | false =>
      cases ha : accepts y.ctrl i with
      | true => exact ⟨_, histNext_accept hrst ha⟩
      | false =>
          rw [histNext_run hrst ha]
          have hidle : y.ctrl.state ≠ .idle := by
            intro hidle
            obtain ⟨s', hs', hm⟩ := clock_move y hrst
            rw [hs'] at hb
            rw [accepts_idle hidle] at ha
            cases hm <;> simp_all [idleRegs, latch]
          obtain ⟨h, e⟩ := ih hidle
          exact ⟨_, by rw [e]; rfl⟩

/-! ## 3. The decoupler pair of a slot -/

/-- The forward signals of an AXI stream. -/
structure Axis (dataW keepW destW idW userW : Nat) where
  tdata : BitVec dataW
  tkeep : BitVec keepW
  tstrb : BitVec keepW
  tvalid : Bool
  tlast : Bool
  tdest : BitVec destW
  tid : BitVec idW
  tuser : BitVec userW

section Decoupler

variable {dataW keepW destW idW userW : Nat}

/-- `axis_dfx_decoupler`, downstream: every signal clamped while `decouple` is high. -/
def decoupleForward (decouple : Bool) (s : Axis dataW keepW destW idW userW) :
    Axis dataW keepW destW idW userW :=
  if decouple then ⟨0, 0, 0, false, false, 0, 0, 0⟩ else s

/-- `axis_dfx_decoupler`, upstream. -/
def decoupleReady (decouple mTready : Bool) : Bool := if decouple then false else mTready

/-- One slot between its two decouplers (`pkt_logic.v`, C00 and C01): what the static side offers
    the slot and whether the slot is ready for it, what the slot offers and whether the register
    behind it is ready. -/
structure SlotPort (dataW keepW destW idW userW : Nat) where
  rx : Axis dataW keepW destW idW userW
  appReady : Bool
  slotTx : Axis dataW keepW destW idW userW
  txReady : Bool

/-- A beat is handshaken into the slot: seen from the static side, or from the slot. -/
def SlotPort.beatIn (decouple : Bool) (p : SlotPort dataW keepW destW idW userW) : Bool :=
  p.rx.tvalid && decoupleReady decouple p.appReady ||
    (decoupleForward decouple p.rx).tvalid && p.appReady

/-- A beat is handshaken out of the slot: seen from the slot, or from the static side. -/
def SlotPort.beatOut (decouple : Bool) (p : SlotPort dataW keepW destW idW userW) : Bool :=
  p.slotTx.tvalid && decoupleReady decouple p.txReady ||
    (decoupleForward decouple p.slotTx).tvalid && p.txReady

theorem decoupled_beatIn (p : SlotPort dataW keepW destW idW userW) : p.beatIn true = false := by
  simp [SlotPort.beatIn, decoupleReady, decoupleForward]

theorem decoupled_beatOut (p : SlotPort dataW keepW destW idW userW) : p.beatOut true = false := by
  simp [SlotPort.beatOut, decoupleReady, decoupleForward]

end Decoupler

/-- **A slot under reconfiguration is isolated.** In every reachable state, whatever commands,
    memory answers, stalls and resets led there: while the controller is in a reconfiguration
    state or presents an ICAP word, the active slot exists and is the running command's, it is
    decoupled, no beat passes its decoupler pair, and the edge does not change the active slot. -/
theorem reconf_slot_isolated {mem : Mem 33} {y : Sys slotCount}
    (hr : Reachable Sys.clock AnyInput (Sys.init slotCount mem) y)
    (hy : y.ctrl.state.reconf = true ∨ y.ctrl.icapTvalid = true) :
    ∃ k : Fin slotCount, k.val = y.ctrl.activeSlotId.toNat ∧
      y.ctrl.reconfActive = true ∧ y.ctrl.slotDecouple k = true ∧
      (∃ h, y.hist = some h ∧ Executes slotCount h.cmd opReconfIcap ∧
        y.ctrl.activeSlotId = cmdSlotId h.cmd) ∧
      (∀ i, i.rst = false → (y.ctrl.clock i).activeSlotId = y.ctrl.activeSlotId) ∧
      ∀ (dataW keepW destW idW userW : Nat) (p : SlotPort dataW keepW destW idW userW),
        p.beatIn (y.ctrl.slotDecouple k) = false ∧ p.beatOut (y.ctrl.slotDecouple k) = false := by
  have hs : y.ctrl.state.reconf = true := by
    rcases hy with h | h
    · exact h
    · rw [(signals_reachable hr).icapTvalid, decide_eq_true_eq] at h
      rw [h]; rfl
  have hidle : y.ctrl.state ≠ .idle := by
    intro e; rw [e] at hs; cases hs
  obtain ⟨h, hh⟩ := hist_of_busy hr hidle
  have hI := reconfInv_reachable hr hh hs
  have hlt : (cmdSlotId h.cmd).toNat < slotCount := by
    simpa [cmdSlotOk] using hI.executes.slotOk rfl
  have hdec : y.ctrl.slotDecouple ⟨_, hlt⟩ = true := hI.decoupled _ rfl
  refine ⟨⟨_, hlt⟩, by rw [hI.slot], hI.active, hdec, ⟨h, hh, hI.executes, hI.slot⟩, ?_, ?_⟩
  · intro i hrst
    obtain ⟨s', hs', hm⟩ := clock_move y hrst
    rw [clock_ctrl] at hs'
    rw [hs']
    rcases move_reconf_cases hm with ⟨e, -⟩ | ⟨-, e, rfl, -⟩ | ⟨hk, -⟩
    · exact absurd e hidle
    · rfl
    · exact hk.activeSlotId
  · intro _ _ _ _ _ p
    rw [hdec]
    exact ⟨decoupled_beatIn p, decoupled_beatOut p⟩

theorem reconf_slot_isolated_slot_one :
    ∃ y : Sys 2, y.ctrl.state.reconf = true ∧ ∃ k : Fin 2, k.val = y.ctrl.activeSlotId.toNat ∧
      y.ctrl.slotDecouple k = true := by
  have hr : Reachable Sys.clock AnyInput (Sys.init 2 fun _ => 0)
      (run Sys.clock (Sys.init 2 fun _ => 0) (offer (commandLine opReconfIcap 1 0x4000 4))) :=
    Reachable.of_run _ (Meets.of_forall (fun _ _ => trivial) _ _)
  have hs : (run Sys.clock (Sys.init 2 fun _ => 0)
      (offer (commandLine opReconfIcap 1 0x4000 4))).ctrl.state.reconf = true := by decide +kernel
  obtain ⟨k, h1, -, h2, -⟩ := reconf_slot_isolated hr (Or.inl hs)
  exact ⟨_, hs, k, h1, h2⟩

/-! ## 4. What a finished reconfiguration leaves -/

/-- Nothing of a reconfiguration is left: the cycle counter is stopped, no slot is cut off. -/
def Clean (s : Ctrl slotCount) : Prop :=
  s.reconfActive = false ∧ ∀ k, s.slotDecouple k = false

/-- Every beat the reconfiguration stream reads arrives OKAY and with RLAST. -/
def StreamReadsOkay (y : Sys slotCount) (i : In) : Prop := ¬ BadBeat y.ctrl i

instance (y : Sys slotCount) (i : In) : Decidable (StreamReadsOkay y i) :=
  inferInstanceAs (Decidable (¬ _))

/-- With clean reads: outside the reconfiguration states nothing is left, inside only the active
    slot is cut off. -/
def CleanInv (s : Ctrl slotCount) : Prop :=
  if s.state.reconf then ∀ k : Fin slotCount, s.slotDecouple k = true → k.val = s.activeSlotId.toNat
  else Clean s

theorem cleanInv_reset : CleanInv (Ctrl.reset slotCount) := ⟨rfl, fun _ => rfl⟩

theorem cleanInv_move {s s' : Ctrl slotCount} {i : In} (hI : CleanInv s) (hb : ¬ BadBeat s i)
    (hm : Move s i s') : CleanInv s' := by
  unfold CleanInv at hI ⊢
  rcases move_reconf_cases hm with ⟨e, -, -, rfl⟩ | ⟨e, err, rfl, -⟩ | ⟨hk, hback, hfwd⟩
  · rw [e] at hI
    intro k hk
    by_contra hne
    have : s.slotDecouple k = true := by
      simpa [startReconf, setSlot, idleRegs, latch, show k.val ≠ (cmdSlotId i.sAxisTdata).toNat from hne]
        using hk
    rw [hI.2 k] at this
    cases this
  · rw [e] at hI
    refine ⟨rfl, fun k => ?_⟩
    show setSlot s.slotDecouple s.activeSlotId false k = false
    unfold setSlot
    split
    · rfl
    · rename_i hne
      exact Bool.eq_false_iff.mpr fun h => hne (hI k h)
  · cases hr : s.state.reconf with
    | true =>
        rw [hr] at hI
        rcases hfwd hr with h | ⟨h, -⟩
        · rw [h, hk.slotDecouple, hk.activeSlotId]
          exact hI
        · exact absurd h hb
    | false =>
        rw [hr] at hI
        have hr' : s'.state.reconf = false := by
          cases h : s'.state.reconf with
          | false => rfl
          | true => rw [hback h] at hr; cases hr
        rw [hr']
        exact ⟨hk.reconfActive.trans hI.1, fun k => by rw [hk.slotDecouple]; exact hI.2 k⟩

theorem cleanInv_reachable {mem : Mem 33} {y : Sys slotCount}
    (hr : Reachable Sys.clock StreamReadsOkay (Sys.init slotCount mem) y) : CleanInv y.ctrl := by
  refine hr.invariant (P := fun y => CleanInv y.ctrl) cleanInv_reset fun y i hI hb => ?_
  cases hrst : i.rst with
  | true => simpa [Ctrl.clock, hrst] using cleanInv_reset
  | false =>
      obtain ⟨s', hs', hm⟩ := clock_move y hrst
      rw [hs']
      exact cleanInv_move hI hb hm

/-- **In every run whose reconfiguration reads succeed, an idle controller is clean**: no
    reconfiguration is active, no slot is cut off, and the cycle counter stands still. -/
theorem idle_clean {mem : Mem 33} {y : Sys slotCount}
    (hr : Reachable Sys.clock StreamReadsOkay (Sys.init slotCount mem) y)
    (hs : y.ctrl.state = .idle) :
    Clean y.ctrl ∧ ∀ i, (latch y.ctrl i).reconfCycles = y.ctrl.reconfCycles := by
  have hI := cleanInv_reachable hr
  unfold CleanInv at hI
  rw [hs] at hI
  have hc : Clean y.ctrl := hI
  exact ⟨hc, fun i => by simp [latch, hc.1]⟩

/-- One word from address `0x4000` into slot 1, answered after PRDONE. -/
def oneWordRun : List In :=
  offer (commandLine opReconfIcap 1 0x4000 4) ++
    [In.low, { In.low with arready := true }, { In.low with rvalid := true, rlast := true },
      { In.low with icapTready := true }, { In.low with icapPrDone := true },
      { In.low with mAxisTready := true }]

theorem idle_clean_after_one_word :
    Clean (run Sys.clock (Sys.init 2 fun _ => 0) oneWordRun).ctrl :=
  (idle_clean (Reachable.of_run oneWordRun (by decide +kernel)) (by decide +kernel)).1

/-- The same command, but its only beat is answered with SLVERR. -/
def abortedRun : List In :=
  offer (commandLine opReconfIcap 1 0x4000 4) ++
    [In.low, { In.low with arready := true },
      { In.low with rvalid := true, rlast := true, rresp := 2 }, { In.low with mAxisTready := true }]

/-- **After an aborted read the controller is idle with the slot still cut off.** -/
theorem idle_not_clean_after_abort :
    ¬ ∀ y : Sys 2, Reachable Sys.clock AnyInput (Sys.init 2 fun _ => 0) y →
      y.ctrl.state = .idle → Clean y.ctrl := by
  intro h
  have hc := h (run Sys.clock (Sys.init 2 fun _ => 0) abortedRun)
    (Reachable.of_run abortedRun (Meets.of_forall (fun _ _ => trivial) _ _)) (by decide +kernel)
  exact absurd hc.1 (by decide +kernel)

end Frac.Reconf
