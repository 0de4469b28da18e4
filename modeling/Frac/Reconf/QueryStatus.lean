/-
  File:      Frac/Reconf/QueryStatus.lean
  Subject:   What `QUERY_STATUS` reports of the commands before it. The record is kept outside the
             controller, from the answers handed over on `m_axis`; the status registers are
             compared with it.

  * `Answered`, `answerTaken` -- a command with its result code and cycle count, recorded when its
    answer is handed over;
  * `lastResult`, `lastSlot`, `lastCycles` -- what a query should report of the record;
  * `Reports` -- the status registers agree with the record (`reports_run`), in runs in which no
    reconfiguration read fails and no read succeeds over a recorded error (`Reporting`);
  * `query_reports_history`, and the two runs in which the registers do not agree.
-/
import Frac.Reconf.Responses

namespace Frac.Reconf

open Clocked Bits

variable {slotCount : Nat}

/-! ## 1. The record of answered commands -/

/-- A command that has been answered: its result code, and the edges between its acceptance and
    the edge that answered it. -/
structure Answered where
  cmd : BitVec 512
  code : BitVec 8
  cycles : Nat
  deriving DecidableEq

/-- The answer on the port: a data line is the success of a read, any other line carries its
    code in byte 0. -/
def answerOf (s : Ctrl slotCount) (h : Hist) : Answered where
  cmd := h.cmd
  code := if s.state = .readSend then Err.ok.code else byteAt s.mAxisTdata 0
  cycles := h.edges.length - 1

/-- The answer handed over at an edge. -/
def answerTaken (y : Sys slotCount) (i : In) : List Answered :=
  if y.ctrl.mAxisTvalid && i.mAxisTready then (y.hist.map (answerOf y.ctrl)).toList else []

/-- The answer that waits on the port. -/
def answerWaiting (y : Sys slotCount) : List Answered :=
  if y.ctrl.state.sends then (y.hist.map (answerOf y.ctrl)).toList else []

def Answered.query (a : Answered) : Bool := cmdOpcode a.cmd == opQueryStatus

/-- A reconfiguration that completed, with ERR_OK or with ERR_ICAP. -/
def Answered.completed (a : Answered) : Bool :=
  cmdOpcode a.cmd == opReconfIcap && (a.code == Err.ok.code || a.code == Err.icap.code)

/-- The result code of the most recent command that is not a query. -/
def lastResult (l : List Answered) : BitVec 8 :=
  ((l.filter (!·.query)).getLast?.map (·.code)).getD Err.ok.code

/-- Slot and cycle count of the most recent completed reconfiguration. -/
def lastSlot (l : List Answered) : BitVec 8 :=
  ((l.filter (·.completed)).getLast?.map fun a => cmdSlotId a.cmd).getD 0

def lastCycles (l : List Answered) : BitVec 64 :=
  ((l.filter (·.completed)).getLast?.map fun a => BitVec.ofNat 64 a.cycles).getD 0

theorem lastResult_snoc (l : List Answered) (a : Answered) :
    lastResult (l ++ [a]) = if a.query then lastResult l else a.code := by
  unfold lastResult
  cases h : a.query <;> simp [List.filter_append, h]

theorem lastSlot_snoc (l : List Answered) (a : Answered) :
    lastSlot (l ++ [a]) = if a.completed then cmdSlotId a.cmd else lastSlot l := by
  unfold lastSlot
  cases h : a.completed <;> simp [List.filter_append, h]

theorem lastCycles_snoc (l : List Answered) (a : Answered) :
    lastCycles (l ++ [a]) = if a.completed then BitVec.ofNat 64 a.cycles else lastCycles l := by
  unfold lastCycles
  cases h : a.completed <;> simp [List.filter_append, h]

/-- **The status registers agree with the record.** -/
structure Reports (s : Ctrl slotCount) (l : List Answered) : Prop where
  error : s.lastError = lastResult l
  slot : s.lastSlotId = lastSlot l
  cycles : s.lastReconfCycles = lastCycles l

/-! ## 2. Which command runs -/

/-- A running write or read belongs to a command that started one. -/
def Runs (h : Hist) (y : Sys slotCount) : Prop :=
  (y.ctrl.state.writing = true → Executes slotCount h.cmd opWriteHbm) ∧
    (y.ctrl.state.reading = true → Executes slotCount h.cmd opReadHbm)

/-- A move into the write or the read states starts the operation, or comes from one of them. -/
theorem move_runs {s s' : Ctrl slotCount} {i : In} (hm : Move s i s') :
    (s'.state.writing = true → s.state.writing = true ∨
      accepts s i = true ∧ Executes slotCount i.sAxisTdata opWriteHbm) ∧
    (s'.state.reading = true → s.state.reading = true ∨
      accepts s i = true ∧ Executes slotCount i.sAxisTdata opReadHbm) := by
  cases hm
  case startWrite hs h hx =>
    exact ⟨fun _ => Or.inr ⟨accepts_iff.mpr ⟨hs, h⟩, hx⟩, (fun e => by cases e)⟩
  case startRead hs h hx =>
    exact ⟨(fun e => by cases e), fun _ => Or.inr ⟨accepts_iff.mpr ⟨hs, h⟩, hx⟩⟩
  case takeAr addr next ho he =>
    rcases ho with ⟨e, -, rfl⟩ | ⟨e, -, rfl⟩ | ⟨e, -, rfl⟩ <;>
      simp [e, St.writing, St.reading]
  all_goals
    simp_all [startStatus, startQueryStatus, startReconf, readSendLine, finishReconf, idleRegs, latch,
      St.writing, St.reading]

theorem runs_reachable {mem : Mem 33} {y : Sys slotCount}
    (hr : Reachable Sys.clock AnyInput (Sys.init slotCount mem) y) {h : Hist}
    (hh : y.hist = some h) : Runs h y := by
  refine hist_invariant (P := fun h y => Runs h y) signals_reset (fun _ e => by cases e) ?_ ?_ hr hh
  · intro y i _ hrst ha
    have hidle := (accepts_iff.mp ha).1
    obtain ⟨s', hs', hm⟩ := clock_move y hrst
    obtain ⟨hw, hrd⟩ := move_runs hm
    rw [Runs, hs']
    constructor
    · intro h
      rcases hw h with e | ⟨-, hx⟩
      · rw [hidle] at e; cases e
      · exact hx
    · intro h
      rcases hrd h with e | ⟨-, hx⟩
      · rw [hidle] at e; cases e
      · exact hx
  · intro y i h _ _ hrst ha ih
    obtain ⟨s', hs', hm⟩ := clock_move y hrst
    obtain ⟨hw, hrd⟩ := move_runs hm
    rw [Runs, hs']
    constructor
    · intro h'
      rcases hw h' with e | ⟨e, -⟩
      · exact ih.1 e
      · rw [ha] at e; cases e
    · intro h'
      rcases hrd h' with e | ⟨e, -⟩
      · exact ih.2 e
      · rw [ha] at e; cases e

/-! ## 3. One edge -/

/-- The edge takes the beat that completes a read with its data line. -/
def ReadCompletes (s : Ctrl slotCount) (i : In) : Prop :=
  (s.state = .readData0 ∧ ¬ s.remainingBytes > 32 ∨ s.state = .readData1) ∧
    (i.rvalid && s.rready) = true ∧ i.rresp = 0 ∧ i.rlast = true

instance (s : Ctrl slotCount) (i : In) : Decidable (ReadCompletes s i) :=
  inferInstanceAs (Decidable ((_ ∨ _) ∧ _ ∧ _ ∧ _))

/-- **The edges after which the status registers can be trusted**: no reset, no failed beat of a
    reconfiguration, and no read that succeeds while `last_error` holds an error. -/
def Reporting (y : Sys slotCount) (i : In) : Prop :=
  i.rst = false ∧ ¬ BadBeat y.ctrl i ∧
    (ReadCompletes y.ctrl i → y.ctrl.lastError = Err.ok.code)

instance (y : Sys slotCount) (i : In) : Decidable (Reporting y i) :=
  inferInstanceAs (Decidable (_ ∧ _ ∧ (_ → _)))

theorem status_byte (e : Err) : byteAt (e.code.setWidth 512 : BitVec 512) 0 = e.code := by
  cases e <;> decide

/-- A verdict is that of an entry of the list, or the operation. -/
theorem verdict_decided (slotCount : Nat) (c : Command) :
    (∃ f ∈ validationOrder slotCount, f c = some (c.verdict slotCount)) ∨
      c.verdict slotCount = c.operation := by
  unfold Command.verdict
  cases hf : (validationOrder slotCount).findSome? fun f => f c with
  | none => exact Or.inr rfl
  | some v =>
      obtain ⟨f, hmem, hv⟩ := List.exists_of_findSome?_eq_some hf
      exact Or.inl ⟨f, hmem, hv⟩

theorem operation_cases (c : Command) :
    c.operation = .write ∨ c.operation = .read ∨ c.operation = .reconf := by
  unfold Command.operation
  split_ifs
  · exact Or.inl rfl
  · exact Or.inr (Or.inl rfl)
  · exact Or.inr (Or.inr rfl)

/-- What the entries decide: a query by its opcode, else an error none of the operations end with. -/
theorem entry_cases {c : Command} {f : Command → Option Verdict} {v : Verdict}
    (hf : f ∈ validationOrder slotCount) (hv : f c = some v) :
    v = .query ∧ c.opcode = 4 ∨ ∃ e, v = .reject e ∧ e ≠ .ok ∧ e ≠ .icap := by
  simp only [validationOrder, List.mem_cons, List.not_mem_nil, or_false] at hf
  -- one goal for each entry of the list
  rcases hf with rfl | rfl | rfl | rfl | rfl | rfl | rfl | rfl <;>
    obtain ⟨hc, hv⟩ := Option.ite_none_right_eq_some.mp hv <;>
    cases hv <;>
    first
      | exact Or.inl ⟨rfl, hc⟩
      | exact Or.inr ⟨_, rfl, by decide, by decide⟩

theorem verdict_query_iff (c : Command) : c.verdict slotCount = .query ↔ c.opcode = 4 := by
  constructor
  · intro h
    rcases verdict_decided slotCount c with ⟨f, hf, hv⟩ | ho
    · rcases entry_cases hf hv with ⟨-, h4⟩ | ⟨e, he, -⟩
      · exact h4
      · rw [h] at he; cases he
    · rw [h] at ho
      rcases operation_cases c with e | e | e <;> rw [e] at ho <;> cases ho
  · intro h
    simp [Command.verdict, validationOrder, h]

/-- A rejected command is no query, and its error is none an operation ends with. -/
theorem verdict_reject {c : Command} {e : Err} (h : c.verdict slotCount = .reject e) :
    c.opcode ≠ 4 ∧ e ≠ .ok ∧ e ≠ .icap := by
  refine ⟨fun hq => ?_, ?_⟩
  · rw [(verdict_query_iff c).mpr hq] at h
    cases h
  · rcases verdict_decided slotCount c with ⟨f, hf, hv⟩ | ho
    · rw [h] at hv
      rcases entry_cases hf hv with ⟨he, -⟩ | ⟨e', he, hne⟩
      · cases he
      · cases he
        exact hne
    · rw [h] at ho
      rcases operation_cases c with e | e | e <;> rw [e] at ho <;> cases ho

/-- A status line enters the record as its code, and leaves the last completed reconfiguration. -/
theorem reports_status {s s' : Ctrl slotCount} {l : List Answered} {h : Hist} {e : Err}
    (hl : Reports s l) (hst : s'.state = .sendStatus) (hd : s'.mAxisTdata = e.code.setWidth 512)
    (he : s'.lastError = e.code) (hslot : s'.lastSlotId = s.lastSlotId)
    (hcyc : s'.lastReconfCycles = s.lastReconfCycles) (hq : cmdOpcode h.cmd ≠ opQueryStatus)
    (hc : cmdOpcode h.cmd = opReconfIcap → e ≠ .ok ∧ e ≠ .icap) :
    Reports s' (l ++ [answerOf s' h]) := by
  have hcode : (answerOf s' h).code = e.code := by
    simp [answerOf, hst, hd, status_byte]
  have hquery : (answerOf s' h).query = false := by simpa [Answered.query, answerOf] using hq
  have hdone : (answerOf s' h).completed = false := by
    rw [Answered.completed, hcode]
    by_cases ho : cmdOpcode h.cmd = opReconfIcap
    · obtain ⟨h1, h2⟩ := hc ho
      revert h1 h2
      cases e <;> simp [Err.code]
    · simp [answerOf, ho]
  constructor
  · rw [lastResult_snoc, hquery, he, hcode]
    rfl
  · rw [lastSlot_snoc, hdone, hslot]
    exact hl.slot
  · rw [lastCycles_snoc, hdone, hcyc]
    exact hl.cycles

/-- A data line enters the record as a success. -/
theorem reports_read {s s' : Ctrl slotCount} {l : List Answered} {h : Hist}
    (hl : Reports s l) (hst : s'.state = .readSend) (he : s'.lastError = Err.ok.code)
    (hslot : s'.lastSlotId = s.lastSlotId) (hcyc : s'.lastReconfCycles = s.lastReconfCycles)
    (hx : Executes slotCount h.cmd opReadHbm) : Reports s' (l ++ [answerOf s' h]) := by
  have hquery : (answerOf s' h).query = false := by
    show (cmdOpcode h.cmd == opQueryStatus) = false
    rw [hx.opcode]
    decide
  have hdone : (answerOf s' h).completed = false := by
    show ((cmdOpcode h.cmd == opReconfIcap) && _) = false
    rw [hx.opcode]
    rfl
  constructor
  · rw [lastResult_snoc, hquery, he]
    exact (if_pos hst).symm
  · rw [lastSlot_snoc, hdone, hslot]
    exact hl.slot
  · rw [lastCycles_snoc, hdone, hcyc]
    exact hl.cycles

/-- The finishing edge of a reconfiguration enters the record as the last completed one. -/
theorem reports_finish {s : Ctrl slotCount} {i : In} {l : List Answered} {h : Hist} {e : Err}
    (hs : s.state = .reconfWaitDone) (hI : ReconfInv h s)
    (he : (i.icapPrErr || s.icapPrErrSeen) = true ∧ e = .icap ∨
      (i.icapPrErr || s.icapPrErrSeen) = false ∧ (i.icapPrDone || s.icapPrDoneSeen) = true ∧ e = .ok) :
    Reports (finishReconf s (latch s i) e)
      (l ++ [answerOf (finishReconf s (latch s i) e) (h.next s i)]) := by
  have hcode : (answerOf (finishReconf s (latch s i) e) (h.next s i)).code = e.code := status_byte e
  have hop : cmdOpcode (answerOf (finishReconf s (latch s i) e) (h.next s i)).cmd = opReconfIcap :=
    hI.executes.opcode
  have hquery : (answerOf (finishReconf s (latch s i) e) (h.next s i)).query = false := by
    rw [Answered.query, hop]
    decide
  have hdone : (answerOf (finishReconf s (latch s i) e) (h.next s i)).completed = true := by
    rw [Answered.completed, hop, hcode]
    rcases he with ⟨-, rfl⟩ | ⟨-, -, rfl⟩ <;> decide
  have hcyc : (answerOf (finishReconf s (latch s i) e) (h.next s i)).cycles = h.edges.length := by
    simp [answerOf, Hist.next, hs, St.busy]
  constructor
  · rw [lastResult_snoc, hquery, hcode]
    rfl
  · rw [lastSlot_snoc, hdone]
    exact hI.slot
  · rw [lastCycles_snoc, hdone, hcyc]
    exact hI.cycles

/-- The edge that accepts a command. -/
theorem reports_accept {y : Sys slotCount} {i : In} {l : List Answered} (hl : Reports y.ctrl l)
    (hrst : i.rst = false) (ha : accepts y.ctrl i = true) :
    Reports (y.clock i).ctrl (l ++ answerWaiting (y.clock i)) := by
  have hc := clock_accept y hrst ha
  have hh : (y.clock i).hist = some (Hist.start i.sAxisTdata y.mem) := histNext_accept hrst ha
  have hopq := cmdOpcode_eq_iff i.sAxisTdata opQueryStatus
  rw [answerWaiting, hh]
  cases hv : (Command.ofLine i.sAxisTdata).verdict slotCount with
  | reject e =>
      obtain ⟨hq, hne⟩ := verdict_reject hv
      rw [hv] at hc
      rw [hc]
      exact reports_status hl rfl rfl rfl rfl rfl (fun h => hq (hopq.mp h)) fun _ => hne
  | query =>
      have hq : cmdOpcode i.sAxisTdata = opQueryStatus := hopq.mpr ((verdict_query_iff _).mp hv)
      have hquery : (answerOf (y.clock i).ctrl (Hist.start i.sAxisTdata y.mem)).query = true := by
        simp [Answered.query, answerOf, Hist.start, hq]
      have hdone : (answerOf (y.clock i).ctrl (Hist.start i.sAxisTdata y.mem)).completed = false := by
        have hne : ¬ opQueryStatus = opReconfIcap := by decide
        simp [Answered.completed, answerOf, Hist.start, hq, hne]
      rw [hv] at hc
      have hsend : (y.clock i).ctrl.state.sends = true := by rw [hc]; rfl
      rw [if_pos hsend]
      refine ⟨?_, ?_, ?_⟩
      · show _ = lastResult (l ++ [_])
        rw [lastResult_snoc, hquery, if_pos rfl, hc]
        exact hl.error
      · show _ = lastSlot (l ++ [_])
        rw [lastSlot_snoc, hdone, hc]
        exact hl.slot
      · show _ = lastCycles (l ++ [_])
        rw [lastCycles_snoc, hdone, hc]
        exact hl.cycles
  | write | read | reconf =>
      rw [hv] at hc
      rw [hc]
      refine ⟨?_, ?_, ?_⟩
      · exact hl.error.trans (congrArg lastResult (List.append_nil l).symm)
      · exact hl.slot.trans (congrArg lastSlot (List.append_nil l).symm)
      · exact hl.cycles.trans (congrArg lastCycles (List.append_nil l).symm)

/-- The edges of a waiting answer: it stays, or moves into the record. -/
theorem reports_sends {y : Sys slotCount} {i : In} {l : List Answered}
    (hl : Reports y.ctrl (l ++ answerWaiting y)) (hrst : i.rst = false)
    (hs : y.ctrl.state.sends = true) :
    Reports (y.clock i).ctrl (l ++ answerTaken y i ++ answerWaiting (y.clock i)) := by
  have hna : accepts y.ctrl i = false := by
    unfold accepts
    rw [decide_eq_false fun e => by rw [e] at hs; cases hs]
    rfl
  have hbusy : y.ctrl.state.busy = false := by revert hs; cases y.ctrl.state <;> simp [St.sends, St.busy]
  have hh : (y.clock i).hist = y.hist.map (·.next y.ctrl i) := histNext_run hrst hna
  obtain ⟨s', hs', hm⟩ := clock_move y hrst
  rcases move_sends hm hs with ⟨h1, e⟩ | ⟨h1, e⟩
  · -- the waiting answer is the same answer after the edge
    have hwait : answerWaiting (y.clock i) = answerWaiting y := by
      unfold answerWaiting
      rw [hs', e, hh]
      show (if y.ctrl.state.sends then _ else _) = if y.ctrl.state.sends then _ else _
      rw [hs]
      cases y.hist with
      | none => rfl
      | some h => simp [answerOf, Hist.next, hbusy, latch]
    have htaken : answerTaken y i = [] := if_neg (Bool.eq_false_iff.mp h1)
    rw [htaken, List.append_nil, hwait, hs', e]
    exact ⟨hl.error, hl.slot, hl.cycles⟩
  · have htaken : answerTaken y i = answerWaiting y := by
      rw [answerTaken, if_pos h1, answerWaiting, if_pos hs]
    have hwait : answerWaiting (y.clock i) = [] := if_neg (by rw [hs', e]; exact Bool.false_ne_true)
    rw [htaken, hwait, List.append_nil, hs', e]
    exact ⟨hl.error, hl.slot, hl.cycles⟩

/-- The edges of a running operation. -/
theorem reports_running {mem : Mem 33} {y : Sys slotCount} {i : In} {l : List Answered}
    (hr : Reachable Sys.clock AnyInput (Sys.init slotCount mem) y) (hl : Reports y.ctrl l)
    (hok : Reporting y i) (ha : accepts y.ctrl i = false) (hs : y.ctrl.state.sends = false) :
    Reports (y.clock i).ctrl (l ++ answerWaiting (y.clock i)) := by
  obtain ⟨hrst, hbad, hread⟩ := hok
  obtain ⟨s', hs', hm⟩ := clock_move y hrst
  have hh : (y.clock i).hist = y.hist.map (·.next y.ctrl i) := histNext_run hrst ha
  have hquiet : s'.state.sends = false → s'.lastError = y.ctrl.lastError →
      s'.lastSlotId = y.ctrl.lastSlotId → s'.lastReconfCycles = y.ctrl.lastReconfCycles →
      Reports (y.clock i).ctrl (l ++ answerWaiting (y.clock i)) := by
    intro h0 h1 h2 h3
    have hnone : answerWaiting (y.clock i) = [] := if_neg (by rw [hs', h0]; exact Bool.false_ne_true)
    rw [hnone, List.append_nil, hs']
    exact ⟨h1.trans hl.error, h2.trans hl.slot, h3.trans hl.cycles⟩
  -- the answering moves: the history of the command that is answered
  have hanswer : y.ctrl.state ≠ .idle → s'.state.sends = true → ∃ h, y.hist = some h ∧
      answerWaiting (y.clock i) = [answerOf s' (h.next y.ctrl i)] := by
    intro hni hsend
    obtain ⟨h, e⟩ := hist_of_busy hr hni
    refine ⟨h, e, ?_⟩
    rw [answerWaiting, hs', if_pos hsend, hh, e]
    rfl
  have hopne : ∀ {op : BitVec 8} {t : BitVec 512}, Executes slotCount t op →
      cmdOpcode t ≠ opQueryStatus := by
    intro op t hx e
    rcases hx.known with k | k | k <;> rw [← hx.opcode, e] at k <;> exact absurd k (by decide)
  cases hm
  case errB ho he hb =>
    obtain ⟨h, e, hw⟩ := hanswer (by rw [ho]; decide) rfl
    have hx := (runs_reachable hr e).1 (by rw [ho]; rfl)
    rw [hw, hs']
    exact reports_status hl rfl rfl rfl rfl rfl (hopne hx) fun k =>
      absurd (hx.opcode.symm.trans k) (by decide)
  case writeDone ho he _ _ _ =>
    obtain ⟨h, e, hw⟩ := hanswer (by rw [ho]; decide) rfl
    have hx := (runs_reachable hr e).1 (by rw [ho]; rfl)
    rw [hw, hs']
    exact reports_status hl rfl rfl rfl rfl rfl (hopne hx) fun k =>
      absurd (hx.opcode.symm.trans k) (by decide)
  case errR ho he err herr =>
    have hst : y.ctrl.state = .readData0 ∨ y.ctrl.state = .readData1 := by
      rcases ho with e | e | e
      · exact Or.inl e
      · exact Or.inr e
      · refine absurd ⟨e, he, ?_⟩ hbad
        rintro ⟨h1, h2⟩
        rcases herr with ⟨h3, -⟩ | ⟨-, h3, -⟩
        · exact h3 h1
        · rw [h2] at h3; cases h3
    obtain ⟨h, e, hw⟩ := hanswer (by rcases hst with e | e <;> rw [e] <;> decide) rfl
    have hx := (runs_reachable hr e).2 (by rcases hst with e | e <;> rw [e] <;> rfl)
    rw [hw, hs']
    exact reports_status hl rfl rfl rfl rfl rfl (hopne hx) fun k =>
      absurd (hx.opcode.symm.trans k) (by decide)
  case read0Send ho he h1 h2 hle =>
    obtain ⟨h, e, hw⟩ := hanswer (by rw [ho]; decide) rfl
    have hx := (runs_reachable hr e).2 (by rw [ho]; rfl)
    rw [hw, hs']
    exact reports_read hl rfl (hread ⟨Or.inl ⟨ho, hle⟩, he, h1, h2⟩) rfl rfl hx
  case read1Send ho he h1 h2 =>
    obtain ⟨h, e, hw⟩ := hanswer (by rw [ho]; decide) rfl
    have hx := (runs_reachable hr e).2 (by rw [ho]; rfl)
    rw [hw, hs']
    exact reports_read hl rfl (hread ⟨Or.inr ho, he, h1, h2⟩) rfl rfl hx
  case finish ho err herr =>
    obtain ⟨h, e, hw⟩ := hanswer (by rw [ho]; decide) rfl
    have hI := reconfInv_reachable hr e (by rw [ho]; rfl)
    rw [hw, hs']
    exact reports_finish ho hI herr
  case holdAr addr ho he =>
    refine hquiet ?_ rfl rfl rfl
    rcases ho with ⟨e, -⟩ | ⟨e, -⟩ | ⟨e, -⟩ <;> exact hs
  case takeAr addr next ho he =>
    refine hquiet ?_ rfl rfl rfl
    rcases ho with ⟨-, -, rfl⟩ | ⟨-, -, rfl⟩ | ⟨-, -, rfl⟩ <;> rfl
  case reject ho he _ _ _ => rw [accepts_idle ho, he] at ha; cases ha
  case query ho he _ => rw [accepts_idle ho, he] at ha; cases ha
  case takeSend ho he => rcases ho with e | e <;> rw [e] at hs <;> cases hs
  all_goals exact hquiet (by first | exact hs | rfl) rfl rfl rfl

/-! ## 4. A whole run -/

theorem reports_edge {mem : Mem 33} {y : Sys slotCount} {i : In} {l : List Answered}
    (hr : Reachable Sys.clock AnyInput (Sys.init slotCount mem) y)
    (hl : Reports y.ctrl (l ++ answerWaiting y)) (hok : Reporting y i) :
    Reports (y.clock i).ctrl (l ++ answerTaken y i ++ answerWaiting (y.clock i)) := by
  cases hs : y.ctrl.state.sends with
  | true => exact reports_sends hl hok.1 hs
  | false =>
      have hwait : answerWaiting y = [] := if_neg (by rw [hs]; exact Bool.false_ne_true)
      have htaken : answerTaken y i = [] :=
        if_neg (by rw [(signals_reachable hr).mAxisTvalid, hs]; exact Bool.false_ne_true)
      rw [hwait, List.append_nil] at hl
      rw [htaken, List.append_nil]
      cases ha : accepts y.ctrl i with
      | true => exact reports_accept hl hok.1 ha
      | false => exact reports_running hr hl hok ha hs

theorem reports_reset {mem : Mem 33} :
    Reports (Sys.init slotCount mem).ctrl ([] ++ answerWaiting (Sys.init slotCount mem)) :=
  ⟨rfl, rfl, rfl⟩

/-- **In every such run the status registers agree with the record**, the waiting answer counted. -/
theorem reports_run {mem : Mem 33} {is : List In}
    (hm : Meets Sys.clock Reporting (Sys.init slotCount mem) is) :
    Reports (run Sys.clock (Sys.init slotCount mem) is).ctrl
      (log Sys.clock answerTaken (Sys.init slotCount mem) is ++
        answerWaiting (run Sys.clock (Sys.init slotCount mem) is)) := by
  refine (run_log (P := fun y l => Reachable Sys.clock AnyInput (Sys.init slotCount mem) y ∧
    Reports y.ctrl (l ++ answerWaiting y)) (fun y i l h hi => ?_) ⟨.start, reports_reset⟩ is hm).2
  exact ⟨.edge y i h.1 trivial, reports_edge h.1 h.2 hi⟩

/-! ## 5. The query line -/

theorem extractLsb'_low {v w : Nat} {hi : BitVec v} {lo : BitVec w} :
    (hi ++ lo).extractLsb' 0 w = lo := by
  rw [BitVec.extractLsb'_append_eq_of_add_le (by omega), BitVec.extractLsb'_eq_self]

/-- **The fields of the query line.** -/
theorem queryStatusData_fields (s : Ctrl slotCount) (avail : Bool) :
    byteAt (queryStatusData s avail) 0 = Err.ok.code ∧
    byteAt (queryStatusData s avail) 1 = (BitVec.ofBool s.reconfActive).setWidth 8 ∧
    byteAt (queryStatusData s avail) 2 = s.lastSlotId ∧
    byteAt (queryStatusData s avail) 3 = s.lastError ∧
    byteAt (queryStatusData s avail) 7 = 0 ∧
    leNat (queryStatusData s avail) 8 8 = s.lastReconfCycles.toNat ∧
    leNat (queryStatusData s avail) 16 8 = (if s.reconfActive then s.reconfCycles else 0).toNat ∧
    ∀ k, 24 ≤ k → byteAt (queryStatusData s avail) k = 0 := by
  have htop : ∀ {v w len j : Nat} {hi : BitVec v} {lo : BitVec w},
      (hi ++ lo).extractLsb' (w + j) len = hi.extractLsb' j len := by
    intro v w len j hi lo
    rw [BitVec.extractLsb'_append_eq_of_le (by omega), Nat.add_sub_cancel_left]
  refine ⟨?_, ?_, ?_, ?_, ?_, ?_, ?_, fun k hk => ?_⟩ <;>
    simp only [leNat_eq, byteAt, queryStatusData, BitVec.extractLsb'_cast]
  · exact extractLsb'_low
  · exact (htop (j := 0)).trans extractLsb'_low
  · exact (htop (j := 8)).trans ((htop (j := 0)).trans extractLsb'_low)
  · exact (htop (j := 16)).trans ((htop (j := 8)).trans ((htop (j := 0)).trans extractLsb'_low))
  · iterate 7 rw [BitVec.extractLsb'_append_eq_of_le (by decide)]
    exact extractLsb'_low
  · iterate 8 rw [BitVec.extractLsb'_append_eq_of_le (by decide)]
    exact congrArg BitVec.toNat extractLsb'_low
  · iterate 9 rw [BitVec.extractLsb'_append_eq_of_le (by decide)]
    exact congrArg BitVec.toNat extractLsb'_low
  · iterate 10 rw [BitVec.extractLsb'_append_eq_of_le (by omega)]
    simp

/-- The flags of the query line. -/
theorem queryStatusData_flags (s : Ctrl slotCount) (avail : Bool) :
    byteAt (queryStatusData s avail) 4 = (BitVec.ofBool avail).setWidth 8 ∧
    byteAt (queryStatusData s avail) 5 = (BitVec.ofBool s.icapPrDoneSeen).setWidth 8 ∧
    byteAt (queryStatusData s avail) 6 = (BitVec.ofBool s.icapPrErrSeen).setWidth 8 := by
  refine ⟨?_, ?_, ?_⟩ <;> simp only [byteAt, queryStatusData, BitVec.extractLsb'_cast]
  · iterate 4 rw [BitVec.extractLsb'_append_eq_of_le (by decide)]
    exact extractLsb'_low
  · iterate 5 rw [BitVec.extractLsb'_append_eq_of_le (by decide)]
    exact extractLsb'_low
  · iterate 6 rw [BitVec.extractLsb'_append_eq_of_le (by decide)]
    exact extractLsb'_low

/-- **The line a query should get**, with the record `l` before it and no reconfiguration running. -/
structure QueryReport (line : BitVec 512) (l : List Answered) : Prop where
  accepted : byteAt line 0 = Err.ok.code
  inactive : byteAt line 1 = 0
  slot : byteAt line 2 = lastSlot l
  error : byteAt line 3 = lastResult l
  reserved : byteAt line 7 = 0
  cycles : leNat line 8 8 = (lastCycles l).toNat
  notRunning : leNat line 16 8 = 0
  padding : ∀ k, 24 ≤ k → byteAt line k = 0

theorem queryReport_of_reports {s : Ctrl slotCount} {l : List Answered} (hl : Reports s l)
    (ha : s.reconfActive = false) (avail : Bool) : QueryReport (queryStatusData s avail) l := by
  obtain ⟨h0, h1, h2, h3, h7, h8, h16, h24⟩ := queryStatusData_fields s avail
  rw [ha] at h1 h16
  exact ⟨h0, h1, h2.trans hl.slot, h3.trans hl.error, h7, by rw [h8, hl.cycles], h16, h24⟩

/-- **In every run whose edges are all `Reporting`, a query reports the history correctly.** When a
    query is accepted after such a run, with `l` the answers handed over before: its line is the
    report of `l`, and the status registers still agree with `l` afterwards, so that the query
    itself changes nothing for later ones. -/
theorem query_reports_history {mem : Mem 33} {is : List In}
    (hm : Meets Sys.clock Reporting (Sys.init slotCount mem) is) {y : Sys slotCount}
    {l : List Answered} (hy : y = run Sys.clock (Sys.init slotCount mem) is)
    (hl : l = log Sys.clock answerTaken (Sys.init slotCount mem) is) {i : In} (hrst : i.rst = false)
    (ha : accepts y.ctrl i = true) (hq : cmdOpcode i.sAxisTdata = opQueryStatus) :
    (y.clock i).ctrl.mAxisTvalid = true ∧ QueryReport (y.clock i).ctrl.mAxisTdata l ∧
      Reports (y.clock i).ctrl l ∧ (y.clock i).ctrl.reconfActive = false := by
  have hidle := (accepts_iff.mp ha).1
  have hreports : Reports y.ctrl l := by
    have h := reports_run hm
    have hwait : answerWaiting y = [] := if_neg (by rw [hidle]; exact Bool.false_ne_true)
    rw [← hy, ← hl, hwait, List.append_nil] at h
    exact h
  have hclean : y.ctrl.reconfActive = false := by
    have hr : Reachable Sys.clock StreamReadsOkay (Sys.init slotCount mem) y := by
      rw [hy]
      exact Reachable.of_run is (hm.mono fun _ _ h => h.2.1)
    have hI := cleanInv_reachable hr
    unfold CleanInv at hI
    rw [hidle] at hI
    exact hI.1
  have hv : (Command.ofLine i.sAxisTdata).verdict slotCount = .query :=
    (verdict_query_iff _).mpr ((cmdOpcode_eq_iff i.sAxisTdata opQueryStatus).mp hq)
  have hc := clock_accept y hrst ha
  rw [hv] at hc
  rw [hc]
  exact ⟨rfl, queryReport_of_reports hreports hclean i.icapAvail,
    ⟨hreports.error, hreports.slot, hreports.cycles⟩, hclean⟩

/-- A query, as first command or as a later one: one idle edge, then the command line. -/
def queryLine : BitVec 512 := commandLine opQueryStatus 0 0 0

/-- The edges of one word for slot 1, its answer taken, and an idle edge. -/
def reconfiguredEdges : List In := oneWordRun ++ [In.low]

theorem query_reports_after_reconf :
    QueryReport ((run Sys.clock (Sys.init 2 fun _ => 0) reconfiguredEdges).clock
      (lineEdge queryLine)).ctrl.mAxisTdata
      (log Sys.clock answerTaken (Sys.init 2 fun _ => 0) reconfiguredEdges) :=
  (query_reports_history (by decide +kernel) rfl rfl (i := lineEdge queryLine) rfl
    (by decide +kernel) (by decide +kernel)).2.1

/-- A rejected command and a read of one byte that succeeds, both answers taken. -/
def readAfterErrorEdges : List In :=
  offer unalignedRead ++ stallThenTake ++ offer (commandLine opReadHbm 0 0x2000 1) ++
    readBeatEdges countingMem 0x2000 ++ [{ In.low with mAxisTready := true }, In.low]

/-- A reconfiguration whose beat fails, the answer taken. -/
def queryAfterAbortEdges : List In := abortedRun ++ [In.low]

/-- **Two runs after which a query misreports**: after a successful read `last_error` still holds
    the error of the command before it, and after an aborted reconfiguration the controller still
    reports one in progress. -/
theorem query_misreports :
    ¬ (∀ (is : List In), (∀ j ∈ is, j.rst = false) → ∀ i : In, i.rst = false →
      accepts (run Sys.clock (Sys.init 2 countingMem) is).ctrl i = true →
      cmdOpcode i.sAxisTdata = opQueryStatus →
      QueryReport ((run Sys.clock (Sys.init 2 countingMem) is).clock i).ctrl.mAxisTdata
        (log Sys.clock answerTaken (Sys.init 2 countingMem) is)) ∧
    byteAt ((run Sys.clock (Sys.init 2 countingMem) readAfterErrorEdges).clock
      (lineEdge queryLine)).ctrl.mAxisTdata 3 = Err.align.code ∧
    lastResult (log Sys.clock answerTaken (Sys.init 2 countingMem) readAfterErrorEdges) =
      Err.ok.code ∧
    byteAt ((run Sys.clock (Sys.init 2 countingMem) queryAfterAbortEdges).clock
      (lineEdge queryLine)).ctrl.mAxisTdata 1 = 1 := by
  refine ⟨fun h => ?_, by decide +kernel, by decide +kernel, by decide +kernel⟩
  have hrep := h readAfterErrorEdges (by decide +kernel) (lineEdge queryLine) rfl
    (by decide +kernel) (by decide +kernel)
  exact absurd hrep.error (by decide +kernel)

end Frac.Reconf
