/-
  File:      Frac/Slots/Log.lean
  Subject:   The slot module `log.v`: the logit of every word of a request, one response beat for each
             data line.

  The words of a line are issued to the subtractor one by one, and the results that come out of the
  logarithm at the other end are packed into the response. The cores cannot be reset: `outstanding`
  counts the results that are owed, and a result that is not owed is dropped.

  * `Log.edge` -- one clock edge; `LogCores` -- what the cores drive at it;
  * `logService` -- **a request is answered with one beat per data line**, whatever the cores do, and
    the last of them says so.
-/
import Frac.Slots.Boundary
import Frac.Slots.Words

namespace Frac.Slots

open Bits

/-! ## 1. The module -/

/-- What the floating-point cores of `log` drive at one edge. -/
structure LogCores where
  subAReady : Bool
  subBReady : Bool
  subResValid : Bool
  divAReady : Bool
  divBReady : Bool
  logResValid : Bool
  logResData : BitVec 32

/-- The operand alignment FIFO, and the subtractions whose results have not come back. -/
structure Align where
  mem : BitVec 5 → BitVec 32
  wr : BitVec 6
  rd : BitVec 6
  subPending : BitVec 6

/-- The registers of `log`. -/
structure Log where
  line : BitVec 512
  issueIdx : BitVec 4
  issuing : Bool
  awaiting : Bool
  lineLast : Bool
  frameActive : Bool
  respValid : Bool
  outstanding : BitVec 5
  flushCnt : BitVec 8
  respSession : BitVec 16
  reqBytes : BitVec 16
  sawHeader : Bool
  align : Align
  acc : BitVec 512
  packIdx : BitVec 4
  respLast : Bool

/-- `FLUSH_CYCLES`. -/
def flushCycles : BitVec 8 := 128

namespace Log

/-- `rst`: the alignment memory keeps its words. -/
def reset (mem : BitVec 5 → BitVec 32) : Log where
  line := 0
  issueIdx := 0
  issuing := false
  awaiting := false
  lineLast := false
  frameActive := false
  respValid := false
  outstanding := 0
  flushCnt := flushCycles
  respSession := 0
  reqBytes := 0
  sawHeader := false
  align := ⟨mem, 0, 0, 0⟩
  acc := 0
  packIdx := 0
  respLast := false

def tready (s : Log) : Bool := !s.issuing && !s.awaiting && !s.respValid && s.flushCnt == 0

def issueFire (s : Log) (c : LogCores) : Bool := s.issuing && c.subAReady && c.subBReady

/-- A result that is owed. -/
def resultFire (s : Log) (c : LogCores) : Bool := c.logResValid && s.outstanding != 0

/-- The clocked block of the alignment. -/
def alignEdge (s : Log) (c : LogCores) : Align :=
  let subResTake := c.subResValid && c.divAReady && c.divBReady
  let a := s.align
  { mem := fun k => if s.issueFire c && k == a.wr.setWidth 5 then word s.line s.issueIdx else a.mem k
    wr := if s.issueFire c then a.wr + 1 else a.wr
    rd := if subResTake && a.subPending != 0 then a.rd + 1 else a.rd
    subPending :=
      if s.issueFire c then if subResTake then a.subPending else a.subPending + 1
      else if subResTake && a.subPending != 0 then a.subPending - 1 else a.subPending }

/-- A beat that is taken. -/
def take (s : Log) (b : SlotBeat) : Log :=
  let r := if s.frameActive then s else
    { s with respSession := b.session, reqBytes := b.bytes, sawHeader := b.isHeader }
  if !s.frameActive && b.isHeader then { r with frameActive := !b.tlast }
  else
    { r with
      frameActive := true
      line := b.payload
      lineLast := b.tlast
      issueIdx := 0
      issuing := true }

/-- A word is issued. -/
def issue (s r : Log) : Log :=
  { r with
    issueIdx := s.issueIdx + 1
    issuing := if s.issueIdx = 15 then false else r.issuing
    awaiting := if s.issueIdx = 15 then true else r.awaiting }

/-- A result is packed. -/
def pack (s : Log) (x : BitVec 32) (r : Log) : Log :=
  { r with
    acc := setWord s.acc s.packIdx x
    packIdx := s.packIdx + 1
    respValid := if s.packIdx = 15 then true else r.respValid
    respLast := if s.packIdx = 15 then s.lineLast else r.respLast
    awaiting := if s.packIdx = 15 then false else r.awaiting }

/-- The clock edge with `rst` low. -/
def edge (s : Log) (offered : Option SlotBeat) (mTready : Bool) (c : LogCores) : Log :=
  let r := match if s.tready then offered else none with
    | none => s
    | some b => take s b
  let r := if s.issueFire c then issue s r else r
  let r := if s.resultFire c then pack s c.logResData r else r
  let r := { r with
    align := s.alignEdge c
    flushCnt := if s.flushCnt = 0 then 0 else s.flushCnt - 1
    outstanding :=
      if s.issueFire c && !s.resultFire c then s.outstanding + 1
      else if !s.issueFire c && s.resultFire c then s.outstanding - 1 else s.outstanding }
  if s.respValid && mTready then
    { r with respValid := false, frameActive := if s.respLast then false else r.frameActive }
  else r

/-- `m_axis_tdata`. -/
def response (s : Log) : SlotBeat :=
  ⟨s.reqBytes - (if s.sawHeader then 64 else 0), s.respSession, s.respLast, s.acc⟩

/-- Nothing is held back: not by the partner behind the slot, not by the subtractor while words are
    issued, not the results once all words of a line are issued. -/
def willing (s : Log) (mTready : Bool) (c : LogCores) : Bool :=
  (!s.respValid || mTready) && (!s.issuing || c.subAReady && c.subBReady) &&
    (!s.awaiting || c.logResValid)

/-- No request is under way and no result is owed. -/
structure Idle (s : Log) : Prop where
  issuing : s.issuing = false
  awaiting : s.awaiting = false
  respValid : s.respValid = false
  frameActive : s.frameActive = false
  outstanding : s.outstanding = 0
  packIdx : s.packIdx = 0

end Log

def logSlot : SlotModule where
  State := Log
  Cores := LogCores
  Idle := Log.Idle
  tready s _ := s.tready
  edge s offered mTready c := s.edge offered mTready c
  sent s _ mTready := if s.respValid && mTready then some s.response else none
  willing s mTready c := s.willing mTready c

theorem log_idle_reset (mem : BitVec 5 → BitVec 32) : logSlot.Idle (Log.reset mem) :=
  ⟨rfl, rfl, rfl, rfl, rfl, rfl⟩

/-! ## 2. A request -/

section Request

variable {d : Nat} {session : BitVec 16} {bs : List SlotBeat}

/-- The registers a request has set with its header. -/
structure LogMeta (d : Nat) (session : BitVec 16) (s : Log) : Prop where
  frameActive : s.frameActive = true
  respSession : s.respSession = session
  reqBytes : s.reqBytes.toNat = 64 * (d + 1)
  sawHeader : s.sawHeader = true

/-- The stations of a line: its words are on their way, or its response is offered. -/
inductive LogLine (last : Bool) (s : Log) : Prop where
  | fill (hf : Filling s.issuing s.issueIdx s.packIdx s.outstanding) (ha : s.awaiting = !s.issuing)
      (hr : s.respValid = false) (hl : s.lineLast = last)
  | answer (hi : s.issuing = false) (ha : s.awaiting = false) (hr : s.respValid = true)
      (hl : s.respLast = last) (ho : s.outstanding = 0) (hp : s.packIdx = 0)

/-- **Where a request is** once `j` of its beats are taken. -/
inductive LogServing (d : Nat) (session : BitVec 16) : Nat → Log → List SlotBeat → Prop where
  | fresh {s} (hs : s.Idle) : LogServing d session 0 s []
  | between {j s out} (h0 : 0 < j) (hj : j < d + 1) (hm : LogMeta d session s)
      (hi : s.issuing = false) (ha : s.awaiting = false) (hr : s.respValid = false)
      (ho : s.outstanding = 0) (hp : s.packIdx = 0) (hout : Partial (j - 1) out) :
      LogServing d session j s out
  | line {j s out} (h0 : 1 < j) (hj : j ≤ d + 1) (hm : LogMeta d session s)
      (hl : LogLine (decide (j = d + 1)) s) (hout : Partial (j - 2) out) : LogServing d session j s out
  | done {s out} (hs : s.Idle) (hout : IsFrame d session out) : LogServing d session (d + 1) s out

/-- What is left of a line, in willing edges. -/
def Log.lineRank (s : Log) : Nat :=
  if s.issuing || s.awaiting then fillRank s.issuing s.issueIdx s.packIdx + 1
  else if s.respValid then 1 else 0

/-- A line costs at most 33 willing edges. -/
def Log.rank (d j : Nat) (s : Log) : Nat := s.flushCnt.toNat + 40 * (d + 1 - j) + s.lineRank

/-- After reset the module counts down. -/
theorem log_flush (s : Log) (o : Option SlotBeat) (t : Bool) (c : LogCores) :
    (s.edge o t c).flushCnt.toNat = s.flushCnt.toNat - 1 := by
  have hflush : (s.edge o t c).flushCnt = if s.flushCnt = 0 then 0 else s.flushCnt - 1 := by
    unfold Log.edge
    simp only
    split <;> rfl
  rw [hflush]
  split
  · rename_i h
    rw [h]
    rfl
  · rename_i h
    exact toNat_pred (Nat.pos_of_ne_zero fun e => h (BitVec.eq_of_toNat_eq e))

/-- The countdown, and nothing that a request looks at. -/
def Log.tick (s : Log) (c : LogCores) (r : Log) : Log :=
  { r with
    align := s.alignEdge c
    flushCnt := if s.flushCnt = 0 then 0 else s.flushCnt - 1 }

/-- An edge of a module that has no line under way. -/
theorem log_quiet {s : Log} (hi : s.issuing = false) (ho : s.outstanding = 0)
    (hr : s.respValid = false) (o : Option SlotBeat) (t : Bool) (c : LogCores) :
    s.edge o t c = s.tick c (match if s.tready then o else none with
      | none => s
      | some b => s.take b) := by
  have h1 : s.issueFire c = false := by rw [Log.issueFire, hi]; rfl
  have h2 : s.resultFire c = false := by rw [Log.resultFire, ho]; exact Bool.and_false _
  have h3 : ∀ b, (s.take b).outstanding = s.outstanding := fun b => by
    unfold Log.take
    split_ifs <;> rfl
  unfold Log.edge
  rw [h1, h2, hr]
  simp only [Bool.false_and, Bool.false_eq_true, if_false, Bool.not_false, Bool.and_false]
  cases (if s.tready then o else none) with
  | none => rfl
  | some b =>
      rw [← h3 b]
      rfl

/-- A beat is taken between two lines, or as the first. -/
theorem log_take (h : IsRequest d session bs) {s : Log} {j : Nat} {b : SlotBeat} {out : List SlotBeat}
    (hb : bs[j]? = some b) (hi : s.issuing = false) (ha : s.awaiting = false)
    (hr : s.respValid = false) (ho : s.outstanding = 0) (hp : s.packIdx = 0)
    (hj : s.frameActive = decide (j ≠ 0)) (hm : s.frameActive = true → LogMeta d session s)
    (hd : 1 ≤ d) (hout : Partial (j - 1) out) (c : LogCores) :
    LogServing d session (j + 1) (s.tick c (s.take b)) out ∧ (s.take b).lineRank ≤ 33 := by
  obtain ⟨hbytes, hsession, hlast⟩ := h.beat hb
  have hlt : j < d + 1 := h.length ▸ (List.getElem?_eq_some_iff.mp hb).1
  by_cases hj0 : j = 0
  · subst hj0
    have hf : s.frameActive = false := hj
    have hhead : b.isHeader = true := h.header hb
    have htl : b.tlast = false := hlast.trans (decide_eq_false (by omega))
    have htake : s.take b = { s with
        respSession := b.session, reqBytes := b.bytes, sawHeader := true, frameActive := true } := by
      simp [Log.take, hf, hhead, htl]
    rw [htake]
    refine ⟨.between (Nat.succ_pos 0) (by omega) ⟨rfl, hsession, hbytes, rfl⟩ hi ha hr ho hp hout, ?_⟩
    simp [Log.lineRank, hi, ha, hr]
  · have hf : s.frameActive = true := hj.trans (decide_eq_true hj0)
    have hmeta := hm hf
    have htake : s.take b = { s with
        frameActive := true, line := b.payload, lineLast := b.tlast, issueIdx := 0,
        issuing := true } := by
      simp [Log.take, hf]
    rw [htake]
    refine ⟨.line (by omega) hlt ⟨rfl, hmeta.respSession, hmeta.reqBytes, hmeta.sawHeader⟩
      (.fill ?_ ha hr ?_) hout, ?_⟩
    · show s.outstanding.toNat + s.packIdx.toNat = 0
      rw [ho, hp]
      rfl
    · rw [show (s.tick c _).lineLast = b.tlast from rfl, hlast]
      exact decide_eq_decide.mpr (by omega)
    · simp [Log.lineRank, fillRank, hp]

/-- **What a line under way sees of an edge.** -/
structure LogStep (s : Log) (c : LogCores) (s' : Log) : Prop where
  words : FillStep (s.issueFire c) (s.resultFire c) s.issuing s.issueIdx s.packIdx s.outstanding
    s'.issuing s'.issueIdx s'.packIdx s'.outstanding
  awaiting : s'.awaiting = (!(s.resultFire c && decide (s.packIdx = 15)) &&
    (s.issueFire c && decide (s.issueIdx = 15) || s.awaiting))
  respValid : s'.respValid = (s.resultFire c && decide (s.packIdx = 15) || s.respValid)
  respLast : s'.respLast =
    if s.resultFire c && decide (s.packIdx = 15) then s.lineLast else s.respLast
  lineLast : s'.lineLast = s.lineLast

/-- An edge at which no beat is taken and no response leaves. -/
theorem log_step {s : Log} {o : Option SlotBeat} {t : Bool} (ht : s.tready = false)
    (hr : (s.respValid && t) = false) (c : LogCores) :
    LogStep s c (s.edge o t c) ∧ ∀ {d session}, LogMeta d session s →
      LogMeta d session (s.edge o t c) := by
  unfold Log.edge
  rw [ht, hr]
  simp only [Bool.false_eq_true, if_false]
  refine ⟨⟨⟨?_, ?_, ?_, rfl⟩, ?_, ?_, ?_, ?_⟩, fun ⟨h1, h2, h3, h4⟩ => ⟨?_, ?_, ?_, ?_⟩⟩ <;>
    cases s.resultFire c <;> cases s.issueFire c <;>
    simp [Log.issue, Log.pack, *]

theorem issueFire_issuing {s : Log} {c : LogCores} (h : s.issueFire c = true) : s.issuing = true := by
  rw [Log.issueFire, Bool.and_eq_true, Bool.and_eq_true] at h
  exact h.1.1

/-- **One edge of a line whose words are on their way.** -/
theorem log_fill {s s' : Log} {last : Bool} {c : LogCores} (hs : LogStep s c s')
    (hf : Filling s.issuing s.issueIdx s.packIdx s.outstanding) (ha : s.awaiting = !s.issuing)
    (hr : s.respValid = false) (hl : s.lineLast = last) (t : Bool) :
    LogLine last s' ∧ s'.lineRank ≤ s.lineRank ∧
      (s.willing t c = true → s'.lineRank < s.lineRank) := by
  have hrank : s.lineRank = fillRank s.issuing s.issueIdx s.packIdx + 1 := by
    rw [Log.lineRank, ha, Bool.or_not_self, if_pos rfl]
  have e3 := hs.awaiting
  have e5 := hs.respValid
  rw [hr, Bool.or_false] at e5
  cases hend : s.resultFire c && decide (s.packIdx = 15) with
  | false =>
      obtain ⟨hfill, hdrop⟩ := filling_goes hs.words hf issueFire_issuing owed_pos hend
      have hwait : s'.awaiting = !s'.issuing := by
        rw [e3, hs.words.issuing, hend, ha]
        cases s.issueFire c && decide (s.issueIdx = 15) <;> rfl
      have hrank' : s'.lineRank = fillRank s'.issuing s'.issueIdx s'.packIdx + 1 := by
        rw [Log.lineRank, hwait, Bool.or_not_self, if_pos rfl]
      refine ⟨.fill hfill hwait (e5.trans hend) (hs.lineLast.trans hl), by omega, fun hw => ?_⟩
      -- a willing edge issues a word or brings a result that is owed
      rw [Log.willing, ha, hr] at hw
      cases hi : s.issuing with
      | true =>
          rw [hi] at hw
          have hfire : s.issueFire c = true := by
            rw [Log.issueFire, hi]
            simpa using hw
          rw [hfire, show true.toNat = 1 from rfl] at hdrop
          omega
      | false =>
          rw [hi] at hw hf
          have hres : s.resultFire c = true := by
            rw [Log.resultFire, Bool.and_eq_true, bne_iff_ne]
            exact ⟨by simpa using hw, filling_owes hf⟩
          rw [hres, show true.toNat = 1 from rfl] at hdrop
          omega
  | true =>
      obtain ⟨-, h1, h2, h3⟩ := filling_ends hs.words hf issueFire_issuing owed_pos hend
      have hlast := hs.respLast
      rw [hend, if_pos rfl, hl] at hlast
      have hwait : s'.awaiting = false := by rw [e3, hend]; rfl
      have hrank' : s'.lineRank = 1 := by
        rw [Log.lineRank, h1, hwait, e5, hend]
        rfl
      have hlt : s'.lineRank < s.lineRank := by
        have := s.packIdx.isLt
        rw [hrank', hrank, fillRank]
        omega
      exact ⟨.answer h1 hwait (e5.trans hend) hlast h3 h2, hlt.le, fun _ => hlt⟩

/-- A response that is not accepted stays. -/
theorem log_answer {s s' : Log} {last : Bool} {c : LogCores} (hs : LogStep s c s')
    (hi : s.issuing = false) (ha : s.awaiting = false) (hr : s.respValid = true)
    (hl : s.respLast = last) (ho : s.outstanding = 0) (hp : s.packIdx = 0) :
    LogLine last s' ∧ s'.lineRank ≤ s.lineRank := by
  have hf : s.resultFire c = false := by rw [Log.resultFire, ho]; exact Bool.and_false _
  have hg : s.issueFire c = false := by rw [Log.issueFire, hi]; rfl
  obtain ⟨⟨e2, -, e4, e8⟩, e3, e5, e6, -⟩ := hs
  simp only [hf, hg, hi, ha, hr, ho, hp, hl, Bool.false_and, Bool.and_false, Bool.false_or,
    Bool.false_eq_true, if_false, Bool.not_false, Bool.and_true, Bool.or_false] at e2 e3 e4 e5 e6 e8
  refine ⟨.answer e2 e3 e5 e6 e8 e4, ?_⟩
  simp [Log.lineRank, e2, e3, e5, hi, ha, hr]

/-- **One edge of a line under way.** -/
theorem log_line {s s' : Log} {last : Bool} (h : LogLine last s) {c : LogCores} (hs : LogStep s c s')
    {t : Bool} (hr : (s.respValid && t) = false) :
    LogLine last s' ∧ s'.lineRank ≤ s.lineRank ∧
      (s.willing t c = true → s'.lineRank < s.lineRank) := by
  cases h with
  | fill hf ha hr' hl => exact log_fill hs hf ha hr' hl t
  | answer hi ha hr' hl ho hp =>
      obtain ⟨h1, h2⟩ := log_answer hs hi ha hr' hl ho hp
      refine ⟨h1, h2, fun hw => ?_⟩
      rw [hr', Bool.true_and] at hr
      rw [Log.willing, hr', hr] at hw
      cases hw

/-! ## 3. The service -/

/-- What an edge owes to a request of `log`. -/
def LogAdvance (d : Nat) (session : BitVec 16) (bs : List SlotBeat) : Nat → Log → List SlotBeat →
    Option SlotBeat → Bool → LogCores → Prop :=
  Advance logSlot bs (LogServing d session) fun j s => Log.rank d j s

/-- Without a line under way and without a beat, only the countdown is left to do. -/
theorem log_wait {j : Nat} {s : Log} {out : List SlotBeat} {c : LogCores}
    (hwait : LogServing d session j (s.tick c s) out) (hi : s.issuing = false)
    (hr : s.respValid = false) (ho : s.outstanding = 0) {o : Option SlotBeat} {t : Bool}
    (ht : (if s.tready then o else none) = none)
    (hnext : o = bs[j]? → s.rank d j ≠ 0 → s.flushCnt.toNat ≠ 0) :
    LogAdvance d session bs j s out o t c := by
  have hsent : logSlot.sent s o t = none := by
    show (if s.respValid && t then some s.response else none) = none
    rw [hr]
    rfl
  have hedge : s.edge o t c = s.tick c s := by rw [log_quiet hi ho hr, ht]
  have hflush := log_flush s o t c
  rw [hedge] at hflush
  have hrank : (s.tick c s).rank d j + s.flushCnt.toNat = s.rank d j + (s.flushCnt.toNat - 1) := by
    rw [Log.rank, Log.rank, hflush, show (s.tick c s).lineRank = s.lineRank from rfl]
    omega
  refine .silent ht hsent ?_ ?_ fun hb _ h0 => ?_
  · rw [show logSlot.edge s o t c = s.edge o t c from rfl, hedge]
    exact hwait
  · rw [show logSlot.edge s o t c = s.edge o t c from rfl, hedge]
    omega
  · have := hnext hb h0
    rw [show logSlot.edge s o t c = s.edge o t c from rfl, hedge]
    omega

/-- A module without a line under way takes what it is offered, once it has counted down. -/
theorem log_ready (h : IsRequest d session bs) (hd : 1 ≤ d) {j : Nat} {s : Log}
    {out : List SlotBeat} {c : LogCores} (hwait : LogServing d session j (s.tick c s) out)
    (hi : s.issuing = false) (ha : s.awaiting = false) (hr : s.respValid = false)
    (ho : s.outstanding = 0) (hp : s.packIdx = 0) (hj : s.frameActive = decide (j ≠ 0))
    (hm : s.frameActive = true → LogMeta d session s) (hlt : j < d + 1)
    (hout : Partial (j - 1) out) {o : Option SlotBeat} (t : Bool) (hoff : o = none ∨ o = bs[j]?) :
    LogAdvance d session bs j s out o t c := by
  cases o with
  | none =>
      refine log_wait hwait hi hr ho (ite_self _) fun hnone => ?_
      have hlen := List.getElem?_eq_none_iff.mp hnone.symm
      have := h.length
      omega
  | some b =>
      have hb : bs[j]? = some b := (hoff.resolve_left (Option.some_ne_none b)).symm
      cases ht : s.tready with
      | false =>
          refine log_wait hwait hi hr ho (by rw [ht]; rfl) fun _ _ hzero => ?_
          have hz : s.flushCnt = 0 := BitVec.eq_of_toNat_eq hzero
          rw [Log.tready, hi, ha, hr, hz] at ht
          cases ht
      | true =>
          have hedge : s.edge (some b) t c = s.tick c (s.take b) := by
            rw [log_quiet hi ho hr, ht]
            rfl
          obtain ⟨h1, h2⟩ := log_take h hb hi ha hr ho hp hj hm hd hout c
          refine .take (b := b) ?_ ?_ ?_ ?_
          · show (if s.tready then some b else none) = some b
            rw [ht]
            rfl
          · show (if s.respValid && t then some s.response else none) = none
            rw [hr]
            rfl
          · rw [show logSlot.edge s (some b) t c = s.edge (some b) t c from rfl, hedge]
            exact h1
          · have hflush := log_flush s (some b) t c
            rw [show logSlot.edge s (some b) t c = s.edge (some b) t c from rfl]
            show (s.edge (some b) t c).rank d (j + 1) < s.rank d j
            rw [Log.rank, Log.rank, hflush, hedge,
              show (s.tick c (s.take b)).lineRank = (s.take b).lineRank from rfl]
            omega

/-- The response of a line is accepted. -/
theorem log_accept {s : Log} (hi : s.issuing = false) (hr : s.respValid = true)
    (ho : s.outstanding = 0) (o : Option SlotBeat) (c : LogCores) :
    s.edge o true c = { s.tick c s with
      respValid := false
      frameActive := if s.respLast then false else s.frameActive } := by
  have h1 : s.issueFire c = false := by rw [Log.issueFire, hi]; rfl
  have h2 : s.resultFire c = false := by rw [Log.resultFire, ho]; exact Bool.and_false _
  have h3 : s.tready = false := by rw [Log.tready, hr, Bool.not_true, Bool.and_false]; rfl
  unfold Log.edge
  rw [h1, h2, h3, hr]
  rfl

/-- The length of the response: that of the request without its header. -/
theorem response_bytes {s : Log} (h : LogMeta d session s) : s.response.bytes.toNat = 64 * d := by
  show (s.reqBytes - (if s.sawHeader then 64 else 0)).toNat = _
  rw [h.sawHeader, if_pos rfl]
  exact less_header h.reqBytes

/-- What the accepted response of a line leaves behind. -/
theorem log_sends {j : Nat} {s : Log} {out : List SlotBeat} (h0 : 1 < j) (hj : j ≤ d + 1)
    (hm : LogMeta d session s) (hi : s.issuing = false) (ha : s.awaiting = false)
    (hl : s.respLast = decide (j = d + 1)) (ho : s.outstanding = 0) (hp : s.packIdx = 0)
    (hout : Partial (j - 2) out) (c : LogCores) :
    LogServing d session j { s.tick c s with
      respValid := false
      frameActive := if s.respLast then false else s.frameActive } (out ++ [s.response]) := by
  by_cases hlast : j = d + 1
  · rw [decide_eq_true hlast] at hl
    subst hlast
    obtain ⟨m, rfl⟩ : ∃ m, d = m + 1 := ⟨d - 1, by omega⟩
    refine .done ⟨hi, ha, rfl, ?_, ho, hp⟩ (hout.frame hl (response_bytes hm) hm.respSession)
    show (if s.respLast then false else s.frameActive) = false
    rw [hl]
    rfl
  · rw [decide_eq_false hlast] at hl
    refine .between (by omega) (by omega) ⟨?_, hm.respSession, hm.reqBytes, hm.sawHeader⟩ hi ha rfl ho hp
      ?_
    · show (if s.respLast then false else s.frameActive) = true
      rw [hl]
      exact hm.frameActive
    · have hsnoc := hout.snoc (b := s.response) hl
      rwa [show j - 2 + 1 = j - 1 by omega] at hsnoc

/-- No beat is taken while a line is under way. -/
theorem log_line_tready {s : Log} {last : Bool} (h : LogLine last s) : s.tready = false := by
  unfold Log.tready
  cases h with
  | fill hf ha => rw [ha]; cases s.issuing <;> rfl
  | answer hi ha hr => rw [hi, ha, hr]; rfl

theorem log_edge (h : IsRequest d session bs) (hd : 1 ≤ d) {j : Nat} {s : Log}
    {out : List SlotBeat} (hinv : LogServing d session j s out) (o : Option SlotBeat) (t : Bool)
    (c : LogCores) (hoff : o = none ∨ o = bs[j]?) : LogAdvance d session bs j s out o t c := by
  cases hinv with
  | fresh hs =>
      obtain ⟨h1, h2, h3, h4, h5, h6⟩ := hs
      exact log_ready h hd (.fresh ⟨h1, h2, h3, h4, h5, h6⟩) h1 h2 h3 h5 h6 (by rw [h4]; rfl)
        (fun e => by rw [h4] at e; cases e) (Nat.succ_pos d) Partial.nil t hoff
  | between h0 hj hm hi ha hr ho hp hout =>
      exact log_ready h hd
        (.between h0 hj ⟨hm.frameActive, hm.respSession, hm.reqBytes, hm.sawHeader⟩ hi ha hr ho hp hout)
        hi ha hr ho hp (by rw [hm.frameActive, decide_eq_true h0.ne']) (fun _ => hm) hj hout t hoff
  | line h0 hj hm hl hout =>
      have htaken : logSlot.taken s o t = none := by
        show (if s.tready then o else none) = none
        rw [log_line_tready hl]
        rfl
      have hflush := log_flush s o t c
      cases hacc : s.respValid && t with
      | false =>
          obtain ⟨hstep, hmeta⟩ := log_step (o := o) (log_line_tready hl) hacc c
          obtain ⟨h1, h2, h3⟩ := log_line hl hstep hacc
          refine .silent htaken ?_ (.line h0 hj (hmeta hm) h1 hout) ?_ fun _ hw _ => ?_
          · show (if s.respValid && t then some s.response else none) = none
            rw [hacc]
            rfl
          · show (s.edge o t c).rank d j ≤ s.rank d j
            rw [Log.rank, Log.rank, hflush]
            omega
          · have hlt := h3 hw
            show (s.edge o t c).rank d j < s.rank d j
            rw [Log.rank, Log.rank, hflush]
            omega
      | true =>
          rw [Bool.and_eq_true] at hacc
          obtain ⟨hr, rfl⟩ := hacc
          cases hl with
          | fill _ _ hr' => rw [hr'] at hr; cases hr
          | answer hi ha _ hl ho hp =>
              have hedge := log_accept hi hr ho o c
              refine .send (b := s.response) htaken ?_ ?_ ?_
              · show (if s.respValid && true then some s.response else none) = some s.response
                rw [hr]
                rfl
              · rw [show logSlot.edge s o true c = s.edge o true c from rfl, hedge]
                exact log_sends h0 hj hm hi ha hl ho hp hout c
              · show (s.edge o true c).rank d j < s.rank d j
                rw [Log.rank, Log.rank, hflush, hedge]
                simp only [Log.lineRank, Log.tick, hi, ha, hr, Bool.or_self, Bool.false_eq_true, if_false,
                  if_true]
                omega
  | done hs hout =>
      have hnil : bs[d + 1]? = none := List.getElem?_eq_none_iff.mpr h.length.le
      obtain rfl : o = none := hoff.elim id fun e => e.trans hnil
      obtain ⟨h1, h2, h3, h4, h5, h6⟩ := hs
      refine log_wait (.done ⟨h1, h2, h3, h4, h5, h6⟩ hout) h1 h3 h5 (ite_self _) fun _ h0 => ?_
      simpa [Log.rank, Log.lineRank, h1, h2, h3] using h0

theorem log_start {s : Log} (hs : s.Idle) : s.rank d 0 ≤ 255 + 40 * (d + 1) := by
  have hf := s.flushCnt.isLt
  simp only [Log.rank, Log.lineRank, hs.issuing, hs.awaiting, hs.respValid]
  simp
  omega

theorem log_finish {j : Nat} {s : Log} {out : List SlotBeat} (h : LogServing d session j s out)
    (h0 : s.rank d j = 0) : IsFrame d session out ∧ s.Idle := by
  have hp := s.packIdx.isLt
  unfold Log.rank at h0
  cases h with
  | fresh => omega
  | between _ hj => omega
  | line _ _ _ hl =>
      unfold Log.lineRank at h0
      cases hl with
      | fill _ ha => rw [ha, Bool.or_not_self, if_pos rfl] at h0; omega
      | answer hi ha hr => rw [hi, ha, hr, Bool.or_false, if_neg Bool.false_ne_true, if_pos rfl] at h0; omega
  | done hs hout => exact ⟨hout, hs⟩

/-- **`log` answers a request with one beat for each data line**, whatever its cores do. -/
def logService (h : IsRequest d session bs) (hd : 1 ≤ d) :
    Service logSlot bs (IsFrame d session) where
  Inv := LogServing d session
  rank j s := Log.rank d j s
  bound := 255 + 40 * (d + 1)
  start hs := ⟨.fresh hs, log_start hs⟩
  edge hinv o t c hoff := log_edge h hd hinv o t c hoff
  finish hinv h0 := log_finish hinv h0

end Request

end Frac.Slots
