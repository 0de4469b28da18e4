/-
  File:      Frac/Reconf/Validation.lean
  Subject:   The validation of command lines: the order `docs/protocol.rst` documents, read off the
             bytes of the line, and that the controller follows it; and what a rejected command
             leaves behind, which is its error line and nothing else.

  * `Command.verdict` -- the documented ordered list, on the documented byte fields;
  * `acceptCommand_verdict` -- the chain of `STATE_IDLE` decides as the list does;
  * `RejectPhase` -- a rejected command from its acceptance to the next command;
  * `command_validated` -- the verdict, its independence of the reserved bytes, and the frame.
-/
import Frac.Reconf.Isolation
import Frac.Reconf.Port

namespace Frac.Reconf

open Clocked Bits

variable {slotCount : Nat}

/-! ## 1. The documented format and order -/

/-- The fields of a command, as numbers. -/
structure Command where
  opcode : Nat
  slotId : Nat
  addr : Nat
  size : Nat
  deriving DecidableEq

/-- The documented layout: byte 0, byte 1, bytes 8-15 and bytes 16-23, little-endian. -/
def Command.ofLine (t : BitVec 512) : Command where
  opcode := leNat t 0 1
  slotId := leNat t 1 1
  addr := leNat t 8 8
  size := leNat t 16 8

/-- What validation decides about a command. -/
inductive Verdict where
  | reject (e : Err)
  | query
  | write
  | read
  | reconf
  deriving DecidableEq

/-- "Validation Order": each entry decides the command or leaves it to the next. -/
def validationOrder (slotCount : Nat) : List (Command → Option Verdict) :=
  [fun c => if ¬ (c.opcode = 1 ∨ c.opcode = 2 ∨ c.opcode = 3 ∨ c.opcode = 4)
      then some (.reject .opcode) else none,
    fun c => if c.opcode = 4 then some .query else none,
    fun c => if ¬ c.addr < 2 ^ 33 then some (.reject .addr) else none,
    fun c => if ¬ c.addr % 32 = 0 then some (.reject .align) else none,
    fun c => if ¬ c.size ≠ 0 then some (.reject .size) else none,
    fun c => if c.opcode = 2 ∧ ¬ c.size ≤ 64 then some (.reject .size) else none,
    fun c => if c.opcode = 3 ∧ ¬ c.size % 4 = 0 then some (.reject .size) else none,
    fun c => if c.opcode = 3 ∧ ¬ c.slotId < slotCount then some (.reject .slot) else none]

/-- The operation of an opcode that passes every check. -/
def Command.operation (c : Command) : Verdict :=
  if c.opcode = 1 then .write else if c.opcode = 2 then .read else .reconf

/-- **The documented decision**: the first entry that decides, else the operation itself. -/
def Command.verdict (slotCount : Nat) (c : Command) : Verdict :=
  ((validationOrder slotCount).findSome? fun f => f c).getD c.operation

/-- **The checks of a command that is carried out.** -/
structure Command.Valid (slotCount : Nat) (c : Command) : Prop where
  opcode : c.opcode = 1 ∨ c.opcode = 2 ∨ c.opcode = 3
  fits : c.addr < 2 ^ 33
  aligned : c.addr % 32 = 0
  sized : c.size ≠ 0
  readSize : c.opcode = 2 → c.size ≤ 64
  reconfSize : c.opcode = 3 → c.size % 4 = 0
  slot : c.opcode = 3 → c.slotId < slotCount

/-- A command that passes every check is decided by its opcode. -/
theorem verdict_valid {c : Command} (h : c.Valid slotCount) :
    c.verdict slotCount = c.operation := by
  obtain ⟨h1, h2, h3, h4, h5, h6, h7⟩ := h
  have hq : c.opcode ≠ 4 := by omega
  have hr : ¬ (c.opcode = 2 ∧ ¬ c.size ≤ 64) := fun e => e.2 (h5 e.1)
  have hi : ¬ (c.opcode = 3 ∧ ¬ c.size % 4 = 0) := fun e => e.2 (h6 e.1)
  have hs : ¬ (c.opcode = 3 ∧ ¬ c.slotId < slotCount) := fun e => e.2 (h7 e.1)
  simp only [Command.verdict, validationOrder, List.findSome?_cons, List.findSome?_nil, hq, h1, h2,
    h3, h4, hr, hi, hs, or_false, not_true, not_false_eq_true, if_false, ne_eq, Option.getD_none]

/-- An entry that would have decided otherwise has left the command to the next. -/
theorem left_to_next {c : Command} {p : Prop} [Decidable p] {v d o : Verdict}
    {f : Command → Option Verdict} {fs : List (Command → Option Verdict)}
    (h : ((f :: fs).findSome? fun f => f c).getD d = o) (hf : f c = if p then some v else none)
    (hv : v ≠ o) : ¬ p ∧ (fs.findSome? fun f => f c).getD d = o := by
  rw [List.findSome?_cons, hf] at h
  by_cases hp : p
  · rw [if_pos hp] at h
    exact absurd h hv
  · rw [if_neg hp] at h
    exact ⟨hp, h⟩

/-- A command that is carried out has passed every check. -/
theorem valid_of_verdict {c : Command}
    (h : c.verdict slotCount = .write ∨ c.verdict slotCount = .read ∨
      c.verdict slotCount = .reconf) : c.Valid slotCount := by
  obtain ⟨o, ho, hquery, hreject⟩ : ∃ o, c.verdict slotCount = o ∧ Verdict.query ≠ o ∧
      ∀ e, Verdict.reject e ≠ o := by
    rcases h with h | h | h <;> exact ⟨_, h, Verdict.noConfusion, fun _ => Verdict.noConfusion⟩
  obtain ⟨h1, ho⟩ := left_to_next ho rfl (hreject _)
  obtain ⟨h2, ho⟩ := left_to_next ho rfl hquery
  obtain ⟨h3, ho⟩ := left_to_next ho rfl (hreject _)
  obtain ⟨h4, ho⟩ := left_to_next ho rfl (hreject _)
  obtain ⟨h5, ho⟩ := left_to_next ho rfl (hreject _)
  obtain ⟨h6, ho⟩ := left_to_next ho rfl (hreject _)
  obtain ⟨h7, ho⟩ := left_to_next ho rfl (hreject _)
  obtain ⟨h8, -⟩ := left_to_next ho rfl (hreject _)
  exact ⟨by omega, by omega, by omega, by omega, by omega, by omega, by omega⟩

/-! ## 2. The chain follows the order -/

/-- What the controller does on a verdict. -/
def Verdict.outcome (v : Verdict) (s : Ctrl slotCount) (i : In) (r : Ctrl slotCount) :
    Ctrl slotCount :=
  match v with
  | .reject e => startStatus r e
  | .query => startQueryStatus s i r
  | .write => startWrite r i.sAxisTdata
  | .read => startRead r i.sAxisTdata
  | .reconf => startReconf r i.sAxisTdata

section Fields

variable (t : BitVec 512)

theorem cmdOpcode_eq_iff (op : BitVec 8) : cmdOpcode t = op ↔ (Command.ofLine t).opcode = op.toNat := by
  rw [← BitVec.toNat_inj]
  show _ ↔ leNat t 0 1 = _
  rw [leNat_eq]
  rfl

theorem cmdAddr_toNat : (cmdAddr t).toNat = (Command.ofLine t).addr := (leNat_eq t 8 8).symm

theorem cmdSize_toNat : (cmdSize t).toNat = (Command.ofLine t).size := (leNat_eq t 16 8).symm

theorem cmdSlotId_toNat : (cmdSlotId t).toNat = (Command.ofLine t).slotId := (leNat_eq t 1 1).symm

theorem cmdAddrFits_iff : cmdAddrFits t = true ↔ (Command.ofLine t).addr < 2 ^ 33 := by
  have hlt := (cmdAddr t).isLt
  rw [cmdAddrFits, beq_iff_eq, ← BitVec.toNat_inj, BitVec.extractLsb'_toNat, cmdAddr_toNat,
    Nat.shiftRight_eq_div_pow]
  rw [cmdAddr_toNat] at hlt
  show _ = 0 ↔ _
  omega

theorem cmdAddrAligned_iff : cmdAddrAligned t = true ↔ (Command.ofLine t).addr % 32 = 0 := by
  rw [cmdAddrAligned, beq_iff_eq, ← BitVec.toNat_inj, BitVec.extractLsb'_toNat, cmdAddr_toNat,
    Nat.shiftRight_zero]
  exact Iff.rfl

theorem cmdSizeNonzero_iff : cmdSizeNonzero t = true ↔ (Command.ofLine t).size ≠ 0 := by
  rw [cmdSizeNonzero, bne_iff_ne, Ne, ← BitVec.toNat_inj, cmdSize_toNat]
  rfl

theorem cmdReadSizeOk_iff : cmdReadSizeOk t = true ↔ (Command.ofLine t).size ≤ 64 := by
  rw [cmdReadSizeOk, decide_eq_true_eq, BitVec.le_def, cmdSize_toNat]
  rfl

theorem cmdReconfSizeOk_iff : cmdReconfSizeOk t = true ↔ (Command.ofLine t).size % 4 = 0 := by
  rw [cmdReconfSizeOk, beq_iff_eq, ← BitVec.toNat_inj, BitVec.extractLsb'_toNat, cmdSize_toNat,
    Nat.shiftRight_zero]
  exact Iff.rfl

theorem cmdSlotOk_iff : cmdSlotOk slotCount t = true ↔ (Command.ofLine t).slotId < slotCount := by
  rw [cmdSlotOk, decide_eq_true_eq, cmdSlotId_toNat]

end Fields

/-- An entry that decides on `p` is one `if` of the chain. -/
theorem outcome_findSome_cons (s : Ctrl slotCount) (i : In) (r : Ctrl slotCount) (c : Command)
    (p : Prop) [Decidable p] (v d : Verdict) (f : Command → Option Verdict)
    (fs : List (Command → Option Verdict)) (hf : f c = if p then some v else none) :
    ((((f :: fs).findSome? fun f => f c).getD d).outcome s i r : Ctrl slotCount) =
      if p then v.outcome s i r else (((fs.findSome? fun f => f c).getD d).outcome s i r) := by
  rw [List.findSome?_cons, hf]
  by_cases hp : p
  · rw [if_pos hp, if_pos hp]
    rfl
  · rw [if_neg hp, if_neg hp]

/-- **The chain of `STATE_IDLE` decides as the documented list does.** -/
theorem acceptCommand_verdict (s : Ctrl slotCount) (i : In) (r : Ctrl slotCount) :
    acceptCommand s i r =
      ((Command.ofLine i.sAxisTdata).verdict slotCount).outcome s i r := by
  generalize ht : i.sAxisTdata = t
  have h1 : cmdOpcode t = opWriteHbm ↔ (Command.ofLine t).opcode = 1 := cmdOpcode_eq_iff t _
  have h2 : cmdOpcode t = opReadHbm ↔ (Command.ofLine t).opcode = 2 := cmdOpcode_eq_iff t _
  have h3 : cmdOpcode t = opReconfIcap ↔ (Command.ofLine t).opcode = 3 := cmdOpcode_eq_iff t _
  have h4 : cmdOpcode t = opQueryStatus ↔ (Command.ofLine t).opcode = 4 := cmdOpcode_eq_iff t _
  have hop : ((Command.ofLine t).operation.outcome s i r : Ctrl slotCount) =
      if (Command.ofLine t).opcode = 1 then startWrite r t
      else if (Command.ofLine t).opcode = 2 then startRead r t else startReconf r t := by
    unfold Command.operation Verdict.outcome
    rw [ht]
    split_ifs <;> rfl
  unfold acceptCommand Command.verdict validationOrder
  iterate 8 rw [outcome_findSome_cons s i r _ _ _ _ _ _ rfl]
  rw [ht]
  simp only [ne_eq, h1, h2, h3, h4, Bool.not_eq_true', ← Bool.not_eq_true, cmdAddrFits_iff,
    cmdAddrAligned_iff, cmdSizeNonzero_iff, cmdReadSizeOk_iff, cmdReconfSizeOk_iff, cmdSlotOk_iff,
    ← not_or]
  rw [← hop]
  rfl

/-! ## 3. Reserved bytes -/

/-- The two lines agree on the bytes of the documented fields. -/
def SameFields (t t' : BitVec 512) : Prop :=
  ∀ k, k < 2 ∨ (8 ≤ k ∧ k < 24) → byteAt t k = byteAt t' k

theorem ofLine_congr {t t' : BitVec 512} (h : SameFields t t') :
    Command.ofLine t = Command.ofLine t' := by
  have hop : leNat t 0 1 = leNat t' 0 1 := leNat_congr fun j _ hj => h j (Or.inl (by omega))
  have hslot : leNat t 1 1 = leNat t' 1 1 := leNat_congr fun j _ hj => h j (Or.inl (by omega))
  have haddr : leNat t 8 8 = leNat t' 8 8 :=
    leNat_congr fun j hj hk => h j (Or.inr ⟨hj, by omega⟩)
  have hsize : leNat t 16 8 = leNat t' 16 8 :=
    leNat_congr fun j hj hk => h j (Or.inr ⟨by omega, by omega⟩)
  rw [Command.ofLine, Command.ofLine, hop, hslot, haddr, hsize]

/-- The controller starts the same operation, on the same registers, for both lines. -/
theorem outcome_congr {t t' : BitVec 512} (h : SameFields t t') (v : Verdict) (s : Ctrl slotCount)
    (i : In) (ht : i.sAxisTdata = t) (r : Ctrl slotCount) :
    v.outcome s { i with sAxisTdata := t' } r = v.outcome s i r := by
  have hc := ofLine_congr h
  have haddr : cmdAddr t' = cmdAddr t :=
    BitVec.eq_of_toNat_eq (by rw [cmdAddr_toNat, cmdAddr_toNat, hc])
  have hsize : cmdSize t' = cmdSize t :=
    BitVec.eq_of_toNat_eq (by rw [cmdSize_toNat, cmdSize_toNat, hc])
  have hslot : cmdSlotId t' = cmdSlotId t :=
    BitVec.eq_of_toNat_eq (by rw [cmdSlotId_toNat, cmdSlotId_toNat, hc])
  cases v with
  | reject e => rfl
  | query => rfl
  | write => simp only [Verdict.outcome, startWrite, haddr, hsize, ht]
  | read => simp only [Verdict.outcome, startRead, haddr, hsize, ht]
  | reconf => simp only [Verdict.outcome, startReconf, haddr, hsize, hslot, ht]

/-- The edge that accepts a command, by the verdict on it. -/
theorem edge_accept {s : Ctrl slotCount} {i : In} (ha : accepts s i = true) :
    s.edge i = ((Command.ofLine i.sAxisTdata).verdict slotCount).outcome s i
      (idleRegs (latch s i) false) := by
  obtain ⟨hidle, hv⟩ := accepts_iff.mp ha
  rw [← acceptCommand_verdict]
  simp [Ctrl.edge, hidle, idleEdge, hv]

theorem clock_accept (y : Sys slotCount) {i : In} (hrst : i.rst = false)
    (ha : accepts y.ctrl i = true) :
    (y.clock i).ctrl = ((Command.ofLine i.sAxisTdata).verdict slotCount).outcome y.ctrl i
      (idleRegs (latch y.ctrl i) false) := by
  rw [← edge_accept ha]
  simp [Ctrl.clock, hrst]

/-! ## 4. What a rejected command leaves -/

/-- Nothing is offered on AW, W, AR or the ICAP stream, so nothing is handshaken there. -/
def Silent (s : Ctrl slotCount) : Prop :=
  s.awvalid = false ∧ s.wvalid = false ∧ s.arvalid = false ∧ s.icapTvalid = false

/-- **Memory, slots and reconfiguration registers are as they were**; the PRDONE and PRERROR latches
    too, where no reconfiguration was active. -/
structure Untouched (y z : Sys slotCount) : Prop where
  mem : z.mem = y.mem
  slotDecouple : z.ctrl.slotDecouple = y.ctrl.slotDecouple
  reconfActive : z.ctrl.reconfActive = y.ctrl.reconfActive
  activeSlotId : z.ctrl.activeSlotId = y.ctrl.activeSlotId
  lastSlotId : z.ctrl.lastSlotId = y.ctrl.lastSlotId
  lastReconfCycles : z.ctrl.lastReconfCycles = y.ctrl.lastReconfCycles
  latches : y.ctrl.reconfActive = false →
    z.ctrl.icapPrDoneSeen = y.ctrl.icapPrDoneSeen ∧ z.ctrl.icapPrErrSeen = y.ctrl.icapPrErrSeen

/-- Only a finishing edge records a slot and a cycle count. -/
theorem move_last {s s' : Ctrl slotCount} {i : In} (hm : Move s i s')
    (hs : s.state ≠ .reconfWaitDone) :
    s'.lastSlotId = s.lastSlotId ∧ s'.lastReconfCycles = s.lastReconfCycles := by
  cases hm
  case finish hw e he => exact absurd hw hs
  all_goals exact ⟨rfl, rfl⟩

/-- An edge that neither writes memory nor starts or finishes a reconfiguration touches nothing. -/
theorem untouched_clock {x y : Sys slotCount} {i : In} (h : Untouched x y) (hsg : Signals y.ctrl)
    (hrst : i.rst = false) (hw : y.ctrl.state ≠ .writeData) (hd : y.ctrl.state ≠ .reconfWaitDone)
    (hs : y.ctrl.state = .idle → (y.clock i).ctrl.state ≠ .reconfAddr) :
    Untouched x (y.clock i) := by
  obtain ⟨s', hs', hm⟩ := clock_move y hrst
  obtain ⟨hslot, hcyc⟩ := move_last hm hd
  have hk : Keeps y.ctrl i s' := by
    rcases move_reconf_cases hm with ⟨hidle, -, -, e⟩ | ⟨e, -⟩ | ⟨hk, -⟩
    · refine absurd ?_ (hs hidle)
      rw [hs', e]
      rfl
    · exact absurd e hd
    · exact hk
  refine ⟨(clock_mem_hold hsg hw i).trans h.mem, ?_, ?_, ?_, ?_, ?_, fun hx => ?_⟩ <;> rw [hs']
  · exact hk.slotDecouple.trans h.slotDecouple
  · exact hk.reconfActive.trans h.reconfActive
  · exact hk.activeSlotId.trans h.activeSlotId
  · exact hslot.trans h.lastSlotId
  · exact hcyc.trans h.lastReconfCycles
  · obtain ⟨h1, h2⟩ := h.latches hx
    have hy : y.ctrl.reconfActive = false := h.reconfActive.trans hx
    rw [hk.prDoneSeen, hk.prErrSeen, ← h1, ← h2]
    simp [latch, hy]

theorem Untouched.refl (y : Sys slotCount) : Untouched y y :=
  ⟨rfl, rfl, rfl, rfl, rfl, rfl, fun _ => ⟨rfl, rfl⟩⟩

/-- **A command rejected with `e` in `y`, until the next command**: its error line is the one in the
    data register. -/
structure Rejected (y : Sys slotCount) (e : Err) (z : Sys slotCount) : Prop where
  signals : Signals z.ctrl
  state : z.ctrl.state = .sendStatus ∨ z.ctrl.state = .idle
  tdata : z.ctrl.mAxisTdata = e.code.setWidth 512
  frame : Untouched y z

theorem rejected_start {y : Sys slotCount} (hsg : Signals y.ctrl) {i : In} (hrst : i.rst = false)
    (ha : accepts y.ctrl i = true) {e : Err}
    (hv : (Command.ofLine i.sAxisTdata).verdict slotCount = .reject e) :
    Rejected y e (y.clock i) := by
  have hc : (y.clock i).ctrl = startStatus (idleRegs (latch y.ctrl i) false) e := by
    rw [clock_accept y hrst ha, hv]
    rfl
  have hidle := (accepts_iff.mp ha).1
  refine ⟨signals_clock hsg i, Or.inl (by rw [hc]; rfl), by rw [hc]; rfl, ?_⟩
  refine untouched_clock (Untouched.refl y) hsg hrst (by rw [hidle]; decide) (by rw [hidle]; decide)
    fun _ => ?_
  rw [hc]
  exact fun h => by cases h

theorem rejected_edge {y z : Sys slotCount} {e : Err} {i : In} (h : Rejected y e z)
    (hi : Serving z i) : Rejected y e (z.clock i) := by
  obtain ⟨hsg, hst, hd, hfr⟩ := h
  obtain ⟨hrst, ha⟩ := hi
  obtain ⟨s', hs', hm⟩ := clock_move z hrst
  have hnext := move_answered hm ha rfl hst
  refine ⟨signals_clock hsg i, by rw [hs']; exact hnext.1, by rw [hs', hnext.2, hd], ?_⟩
  refine untouched_clock hfr hsg hrst ?_ ?_ fun _ => ?_
  · rcases hst with e1 | e1 <;> rw [e1] <;> decide
  · rcases hst with e1 | e1 <;> rw [e1] <;> decide
  · rw [hs']
    rcases hnext.1 with e1 | e1 <;> rw [e1] <;> decide

theorem silent_of_signals {s : Ctrl slotCount} (hsg : Signals s)
    (hs : s.state = .sendStatus ∨ s.state = .idle) : Silent s := by
  have h1 : s.state ≠ .writeAddr ∧ s.state ≠ .writeData ∧ s.state ≠ .reconfStream ∧
      s.state.addresses = false := by rcases hs with e | e <;> rw [e] <;> decide
  obtain ⟨haw, hw, hic, har⟩ := h1
  exact ⟨hsg.awvalid haw, hsg.wvalid.trans (decide_eq_false hw), hsg.arvalid har,
    hsg.icapTvalid.trans (decide_eq_false hic)⟩

/-- **Commands are validated as documented, and a rejection has no effect but its error line.** For
    a command line accepted in any reachable state: the controller goes on as the verdict of the
    documented list says; a line with the same field bytes takes it to the same registers; and if
    the verdict is an error, then at every edge up to the next command no AXI address or data
    channel and no ICAP word is offered, memory, slots and reconfiguration registers are as they
    were, and the error line waits or has been taken exactly once. -/
theorem command_validated {mem : Mem 33} {y : Sys slotCount}
    (hr : Reachable Sys.clock AnyInput (Sys.init slotCount mem) y) {i : In} (hrst : i.rst = false)
    (ha : accepts y.ctrl i = true) :
    (y.clock i).ctrl = ((Command.ofLine i.sAxisTdata).verdict slotCount).outcome y.ctrl i
      (idleRegs (latch y.ctrl i) false) ∧
    (∀ t', SameFields i.sAxisTdata t' →
      (y.clock { i with sAxisTdata := t' }).ctrl = (y.clock i).ctrl) ∧
    ∀ e, (Command.ofLine i.sAxisTdata).verdict slotCount = .reject e → Silent y.ctrl ∧
      ∀ js, Meets Sys.clock Serving (y.clock i) js →
        let z := run Sys.clock (y.clock i) js
        let taken := log Sys.clock (fun z j => responseTaken z.ctrl j) (y.clock i) js
        Silent z.ctrl ∧ Untouched y z ∧
          (z.ctrl.mAxisTvalid = true ∧ taken = [] ∧ z.ctrl.response = .status e ∨
            z.ctrl.mAxisTvalid = false ∧ taken = [.status e]) := by
  have hsg := signals_reachable hr
  refine ⟨clock_accept y hrst ha, fun t' ht => ?_, fun e he => ?_⟩
  · refine (clock_accept y (i := { i with sAxisTdata := t' }) hrst ha).trans ?_
    rw [clock_accept y hrst ha, ← ofLine_congr ht]
    exact outcome_congr ht _ y.ctrl i rfl _
  · refine ⟨silent_of_signals hsg (Or.inr (accepts_iff.mp ha).1), fun js hm => ?_⟩
    have hserved := served_run hsg (framed_reachable hr) hrst ha hm
    have hrej := run_meets (P := Rejected y e) (fun z j h hj => rejected_edge h hj)
      (rejected_start hsg hrst ha he) js hm
    refine ⟨silent_of_signals hrej.signals hrej.state, hrej.frame, ?_⟩
    have hdata := hrej.tdata
    rw [hrej.signals.mAxisTvalid]
    rcases hserved.phase with ⟨h1, h2⟩ | ⟨h1, h2⟩
    · have hst := hrej.state.resolve_right h1
      refine Or.inl ⟨by rw [hst]; rfl, h2, ?_⟩
      rw [hserved.framed (by rw [hst]; rfl), hdata]
      rfl
    · refine Or.inr ⟨by rw [h1]; rfl, h2.trans ?_⟩
      rw [hdata]
      rfl

/-- A read of 65 bytes at an unaligned address: the address is checked first. -/
def unalignedRead : BitVec 512 := commandLine opReadHbm 0 0x2001 65

/-- The edges that hold the error line back once and then take it. -/
def stallThenTake : List In := [In.low, { In.low with mAxisTready := true }]

theorem command_validated_unaligned :
    Untouched (run Sys.clock (Sys.init 2 countingMem) [In.low])
        (run Sys.clock (Sys.offered countingMem unalignedRead) stallThenTake) ∧
      log Sys.clock (fun z j => responseTaken z.ctrl j) (Sys.offered countingMem unalignedRead)
        stallThenTake = [.status .align] := by
  have hr : Reachable Sys.clock AnyInput (Sys.init 2 countingMem)
      (run Sys.clock (Sys.init 2 countingMem) [In.low]) :=
    Reachable.of_run [In.low] (Meets.of_forall (fun _ _ => trivial) _ _)
  have hall := (command_validated hr (i := lineEdge unalignedRead) rfl (by decide +kernel)).2.2
    .align (by decide +kernel)
  obtain ⟨-, hfr, hph⟩ := hall.2 stallThenTake (by decide +kernel)
  refine ⟨hfr, ?_⟩
  rcases hph with ⟨hv, -⟩ | ⟨-, hl⟩
  · exact absurd hv (by decide +kernel)
  · exact hl

end Frac.Reconf
