/-
  File:      Frac/Slots/Norm.lean
  Subject:   The slot module `norm.v`: min-max normalisation of a request, one response beat for each
             data line.

  The module works in two passes: it holds the lines of a request in a buffer of 256 while it looks for
  the extremes, subtracts them, and then plays the lines back through the cores. As in `log.v` the
  results that are owed are counted.

  * `Norm.edge` -- one clock edge; `NormCores` -- what the cores drive at it;
  * `normService` -- **a request of at most 256 data lines is answered with one beat per data line**,
    whatever the cores do.
-/
import Frac.Slots.Log

namespace Frac.Slots

open Bits

/-! ## 1. The module -/

/-- `ST_RX`, `ST_RANGE`, `ST_NORM`. -/
inductive Pass where
  | rx
  | range
  | norm
  deriving DecidableEq

/-- What the floating-point cores of `norm` drive at one edge. -/
structure NormCores where
  subAReady : Bool
  subBReady : Bool
  subResValid : Bool
  subResData : BitVec 32
  divResValid : Bool
  divResData : BitVec 32

/-- The registers of `norm`. -/
structure Norm where
  state : Pass
  linebuf : BitVec 8 → BitVec 512
  hold : BitVec 512
  nlines : BitVec 9
  frameActive : Bool
  lastSeen : Bool
  scanning : Bool
  scanIdx : BitVec 4
  maxVal : BitVec 32
  minVal : BitVec 32
  maxKey : BitVec 32
  minKey : BitVec 32
  range : BitVec 32
  rangeIssued : Bool
  repLine : BitVec 9
  repIdx : BitVec 4
  repLoaded : Bool
  issuing : Bool
  acc : BitVec 512
  packIdx : BitVec 4
  respValid : Bool
  respLast : Bool
  outstanding : BitVec 5
  flushCnt : BitVec 8
  respSession : BitVec 16
  reqBytes : BitVec 16
  sawHeader : Bool

/-- An unsigned key in the order of the floats. -/
def fkey (f : BitVec 32) : BitVec 32 := if f.getLsbD 31 then ~~~f else f ||| 0x80000000

namespace Norm

/-- `rst`: the buffer and the line held keep their values. -/
def reset (linebuf : BitVec 8 → BitVec 512) (hold : BitVec 512) : Norm where
  state := .rx
  linebuf := linebuf
  hold := hold
  nlines := 0
  frameActive := false
  lastSeen := false
  scanning := false
  scanIdx := 0
  maxVal := 0
  minVal := 0
  maxKey := 0
  minKey := 0xFFFFFFFF
  range := 0
  rangeIssued := false
  repLine := 0
  repIdx := 0
  repLoaded := false
  issuing := false
  acc := 0
  packIdx := 0
  respValid := false
  respLast := false
  outstanding := 0
  flushCnt := flushCycles
  respSession := 0
  reqBytes := 0
  sawHeader := false

def tready (s : Norm) : Bool :=
  s.state == .rx && !s.scanning && decide (s.nlines < 256) && s.flushCnt == 0

/-- `sub_fire`. -/
def subFire (s : Norm) (c : NormCores) : Bool :=
  (s.state == .range && !s.rangeIssued || s.state == .norm && s.issuing && s.repLoaded) &&
    c.subAReady && c.subBReady

/-- A result that is owed. -/
def resultFire (s : Norm) (c : NormCores) : Bool := c.divResValid && s.outstanding != 0

/-- A beat that is taken. -/
def take (s : Norm) (b : SlotBeat) : Norm :=
  let r := if s.frameActive then s else
    { s with respSession := b.session, reqBytes := b.bytes, sawHeader := b.isHeader }
  if !s.frameActive && b.isHeader then { r with frameActive := !b.tlast }
  else
    { r with
      frameActive := true
      linebuf := fun k => if k = s.nlines.setWidth 8 then b.payload else s.linebuf k
      hold := b.payload
      nlines := s.nlines + 1
      lastSeen := b.tlast
      scanIdx := 0
      scanning := true }

/-- One word of the line held is compared. -/
def scan (s r : Norm) : Norm :=
  let x := word s.hold s.scanIdx
  { r with
    maxKey := if fkey x > s.maxKey then fkey x else r.maxKey
    maxVal := if fkey x > s.maxKey then x else r.maxVal
    minKey := if fkey x < s.minKey then fkey x else r.minKey
    minVal := if fkey x < s.minKey then x else r.minVal
    scanIdx := s.scanIdx + 1
    scanning := if s.scanIdx = 15 then false else r.scanning
    state := if s.scanIdx = 15 ∧ s.lastSeen = true then .range else r.state
    rangeIssued := if s.scanIdx = 15 ∧ s.lastSeen = true then false else r.rangeIssued }

/-- `max - min`. -/
def measure (s : Norm) (c : NormCores) (r : Norm) : Norm :=
  let r := { r with rangeIssued := if s.subFire c then true else r.rangeIssued }
  if c.subResValid then
    { r with
      range := c.subResData
      state := .norm
      repLine := 0
      repIdx := 0
      repLoaded := false
      issuing := true
      packIdx := 0 }
  else r

/-- A line is fetched from the buffer, then its words are issued. -/
def replay (s : Norm) (c : NormCores) (r : Norm) : Norm :=
  if s.issuing && !s.repLoaded then
    { r with hold := s.linebuf (s.repLine.setWidth 8), repLoaded := true }
  else if s.subFire c then
    { r with
      repIdx := s.repIdx + 1
      issuing := if s.repIdx = 15 then false else r.issuing }
  else r

/-- A result is packed. -/
def pack (s : Norm) (x : BitVec 32) (r : Norm) : Norm :=
  { r with
    acc := setWord s.acc s.packIdx x
    packIdx := s.packIdx + 1
    respValid := if s.packIdx = 15 then true else r.respValid
    respLast := if s.packIdx = 15 then s.repLine == s.nlines - 1 else r.respLast }

/-- The response is accepted. -/
def accept (s r : Norm) : Norm :=
  if s.respLast then
    { r with
      respValid := false
      state := .rx
      nlines := 0
      frameActive := false
      lastSeen := false
      maxKey := 0
      minKey := 0xFFFFFFFF }
  else
    { r with
      respValid := false
      repLine := s.repLine + 1
      repIdx := 0
      repLoaded := false
      issuing := true }

/-- The clock edge with `rst` low. -/
def edge (s : Norm) (offered : Option SlotBeat) (mTready : Bool) (c : NormCores) : Norm :=
  let r := match if s.tready then offered else none with
    | none => s
    | some b => take s b
  let r := if s.scanning then scan s r else r
  let r := if s.state = .range then measure s c r else r
  let r := if s.state = .norm then replay s c r else r
  let r := if s.resultFire c then pack s c.divResData r else r
  let fire := s.subFire c && s.state == .norm
  let r := { r with
    flushCnt := if s.flushCnt = 0 then 0 else s.flushCnt - 1
    outstanding :=
      if fire && !s.resultFire c then s.outstanding + 1
      else if !fire && s.resultFire c then s.outstanding - 1 else s.outstanding }
  if s.respValid && mTready then accept s r else r

/-- `m_axis_tdata`. -/
def response (s : Norm) : SlotBeat :=
  ⟨s.reqBytes - (if s.sawHeader then 64 else 0), s.respSession, s.respLast, s.acc⟩

/-- Nothing is held back: not by the partner behind the slot, not the range, not by the subtractor
    while words are issued, not the results once all words of a line are issued. -/
def willing (s : Norm) (mTready : Bool) (c : NormCores) : Bool :=
  match s.state with
  | .rx => true
  | .range => c.subResValid
  | .norm =>
      if s.respValid then mTready
      else if s.issuing then !s.repLoaded || c.subAReady && c.subBReady else c.divResValid

/-- No request is under way and no result is owed. -/
structure Idle (s : Norm) : Prop where
  state : s.state = .rx
  scanning : s.scanning = false
  nlines : s.nlines = 0
  frameActive : s.frameActive = false
  respValid : s.respValid = false
  outstanding : s.outstanding = 0
  packIdx : s.packIdx = 0

end Norm

def normSlot : SlotModule where
  State := Norm
  Cores := NormCores
  Idle := Norm.Idle
  tready s _ := s.tready
  edge s offered mTready c := s.edge offered mTready c
  sent s _ mTready := if s.respValid && mTready then some s.response else none
  willing s mTready c := s.willing mTready c

theorem norm_idle_reset (linebuf : BitVec 8 → BitVec 512) (hold : BitVec 512) :
    normSlot.Idle (Norm.reset linebuf hold) :=
  ⟨rfl, rfl, rfl, rfl, rfl, rfl, rfl⟩

/-! ## 2. A request -/

section Request

variable {d : Nat} {session : BitVec 16} {bs : List SlotBeat}

/-- The registers a request has set with its header. -/
structure NormMeta (d : Nat) (session : BitVec 16) (s : Norm) : Prop where
  frameActive : s.frameActive = true
  respSession : s.respSession = session
  reqBytes : s.reqBytes.toNat = 64 * (d + 1)
  sawHeader : s.sawHeader = true

/-- No result is owed and no response offered. -/
structure Norm.Still (s : Norm) : Prop where
  respValid : s.respValid = false
  outstanding : s.outstanding = 0
  packIdx : s.packIdx = 0

/-- The stations of a line in the second pass: its words are on their way, or its response is
    offered. -/
inductive NormLine (last : Bool) (s : Norm) : Prop where
  | fill (hf : Filling s.issuing s.repIdx s.packIdx s.outstanding)
      (hl : s.repLoaded = false → s.issuing = true) (hr : s.respValid = false)
  | answer (hi : s.issuing = false) (hr : s.respValid = true) (hl : s.respLast = last)
      (ho : s.outstanding = 0) (hp : s.packIdx = 0)

/-- **Where a request is** once `j` of its beats are taken. -/
inductive NormServing (d : Nat) (session : BitVec 16) : Nat → Norm → List SlotBeat → Prop where
  | fresh {s} (hs : s.Idle) : NormServing d session 0 s []
  | between {j s} (h0 : 0 < j) (hj : j < d + 1) (hm : NormMeta d session s) (hq : s.Still)
      (hs : s.state = .rx) (hc : s.scanning = false) (hn : s.nlines.toNat = j - 1) :
      NormServing d session j s []
  | scan {j s} (h0 : 1 < j) (hj : j ≤ d + 1) (hm : NormMeta d session s) (hq : s.Still)
      (hs : s.state = .rx) (hc : s.scanning = true) (hn : s.nlines.toNat = j - 1)
      (hl : s.lastSeen = decide (j = d + 1)) : NormServing d session j s []
  | range {s} (hm : NormMeta d session s) (hq : s.Still) (hs : s.state = .range)
      (hc : s.scanning = false) (hn : s.nlines.toNat = d) : NormServing d session (d + 1) s []
  | line {s out} (hm : NormMeta d session s) (hs : s.state = .norm) (hc : s.scanning = false)
      (hn : s.nlines.toNat = d) (hlt : s.repLine.toNat < d)
      (hl : NormLine (decide (s.repLine.toNat + 1 = d)) s) (hout : Partial s.repLine.toNat out) :
      NormServing d session (d + 1) s out
  | done {s out} (hs : s.Idle) (hout : IsFrame d session out) : NormServing d session (d + 1) s out

/-- What is left of a line in the second pass, in willing edges. -/
def Norm.lineRank (s : Norm) : Nat :=
  if s.respValid then 1
  else fillRank s.issuing s.repIdx s.packIdx + (if s.repLoaded then 1 else 2)

/-- What is left of the request, but for the countdown. -/
def Norm.passRank (d j : Nat) (s : Norm) : Nat :=
  match s.state with
  | .rx => 20 * (d + 1 - j) + (if s.scanning then 16 - s.scanIdx.toNat else 0) +
      (if s.scanning || decide (j < d + 1) then 40 * d + 2 else 0)
  | .range => 40 * d + 1
  | .norm => 40 * (d - 1 - s.repLine.toNat) + s.lineRank

def Norm.rank (d j : Nat) (s : Norm) : Nat := s.flushCnt.toNat + s.passRank d j

/-- The countdown. -/
def Norm.tick (s r : Norm) : Norm :=
  { r with flushCnt := if s.flushCnt = 0 then 0 else s.flushCnt - 1 }

theorem tick_flush (s r : Norm) : (s.tick r).flushCnt.toNat = s.flushCnt.toNat - 1 := by
  show (if s.flushCnt = 0 then 0 else s.flushCnt - 1).toNat = _
  split
  · rename_i h
    rw [h]
    rfl
  · rename_i h
    exact toNat_pred (Nat.pos_of_ne_zero fun e => h (BitVec.eq_of_toNat_eq e))

/-- After reset the module counts down. -/
theorem norm_flush (s : Norm) (o : Option SlotBeat) (t : Bool) (c : NormCores) :
    (s.edge o t c).flushCnt.toNat = s.flushCnt.toNat - 1 := by
  have hflush : (s.edge o t c).flushCnt = (s.tick s).flushCnt := by
    unfold Norm.edge
    simp only
    split
    · unfold Norm.accept
      split <;> rfl
    · rfl
  rw [hflush]
  exact tick_flush s s

/-! ### The first pass -/

/-- No result is taken outside the second pass. -/
theorem norm_unowed {s : Norm} (hq : s.Still) (c : NormCores) : s.resultFire c = false := by
  rw [Norm.resultFire, hq.outstanding]
  exact Bool.and_false _

/-- An edge between two lines of the first pass. -/
theorem norm_between {s : Norm} (hq : s.Still) (hs : s.state = .rx) (hc : s.scanning = false)
    (o : Option SlotBeat) (t : Bool) (c : NormCores) :
    s.edge o t c = s.tick (match if s.tready then o else none with
      | none => s
      | some b => s.take b) := by
  have htake : ∀ b, (s.take b).outstanding = s.outstanding := fun b => by
    unfold Norm.take
    split_ifs <;> rfl
  have h1 : (s.subFire c && s.state == .norm) = false := by rw [hs]; exact Bool.and_false _
  have h2 : s.state ≠ .range := by rw [hs]; exact Pass.noConfusion
  have h3 : s.state ≠ .norm := by rw [hs]; exact Pass.noConfusion
  unfold Norm.edge
  simp only [h1, norm_unowed hq, hc, hq.respValid, if_neg h2, if_neg h3, Bool.false_and,
    Bool.false_eq_true, if_false, Bool.not_false, Bool.and_false]
  cases (if s.tready then o else none) with
  | none => rfl
  | some b =>
      rw [← htake b]
      rfl

/-- An edge at which a word is compared. -/
theorem norm_compare {s : Norm} (hq : s.Still) (hs : s.state = .rx) (hc : s.scanning = true)
    (o : Option SlotBeat) (t : Bool) (c : NormCores) : s.edge o t c = s.tick (s.scan s) := by
  have h0 : s.tready = false := by rw [Norm.tready, hs, hc]; rfl
  have h1 : (s.subFire c && s.state == .norm) = false := by rw [hs]; exact Bool.and_false _
  have h2 : s.state ≠ .range := by rw [hs]; exact Pass.noConfusion
  have h3 : s.state ≠ .norm := by rw [hs]; exact Pass.noConfusion
  unfold Norm.edge
  simp only [h0, h1, norm_unowed hq, hc, hq.respValid, if_neg h2, if_neg h3, Bool.false_and,
    Bool.false_eq_true, if_false, if_true, Bool.not_false, Bool.and_false]
  rfl

/-- An edge between the passes. -/
theorem norm_measure {s : Norm} (hq : s.Still) (hs : s.state = .range) (hc : s.scanning = false)
    (o : Option SlotBeat) (t : Bool) (c : NormCores) : s.edge o t c = s.tick (s.measure c s) := by
  have h0 : s.tready = false := by rw [Norm.tready, hs]; rfl
  have h1 : (s.subFire c && s.state == .norm) = false := by rw [hs]; exact Bool.and_false _
  have h3 : s.state ≠ .norm := by rw [hs]; exact Pass.noConfusion
  unfold Norm.edge
  simp only [h0, h1, norm_unowed hq, hc, hq.respValid, if_pos hs, if_neg h3, Bool.false_and,
    Bool.false_eq_true, if_false, Bool.not_false, Bool.and_false]
  unfold Norm.measure
  cases c.subResValid <;> rfl

/-- A beat is taken between two lines, or as the first. -/
theorem norm_take (h : IsRequest d session bs) (hd : 1 ≤ d) (hd' : d ≤ 256) {s : Norm} {j : Nat}
    {b : SlotBeat} (hb : bs[j]? = some b) (hq : s.Still) (hs : s.state = .rx)
    (hc : s.scanning = false) (hn : s.nlines.toNat = j - 1) (hj : s.frameActive = decide (j ≠ 0))
    (hm : s.frameActive = true → NormMeta d session s) :
    NormServing d session (j + 1) (s.tick (s.take b)) [] ∧
      (s.take b).passRank d (j + 1) < s.passRank d j := by
  obtain ⟨hbytes, hsession, hlast⟩ := h.beat hb
  have hlt : j < d + 1 := h.length ▸ (List.getElem?_eq_some_iff.mp hb).1
  have hrank : s.passRank d j = 20 * (d + 1 - j) + (40 * d + 2) := by
    simp [Norm.passRank, hs, hc, hlt]
  obtain ⟨hq1, hq2, hq3⟩ := hq
  by_cases hj0 : j = 0
  · subst hj0
    have hf : s.frameActive = false := hj
    have hhead : b.isHeader = true := h.header hb
    have htl : b.tlast = false := hlast.trans (decide_eq_false (by omega))
    have htake : s.take b = { s with
        respSession := b.session, reqBytes := b.bytes, sawHeader := true, frameActive := true } := by
      simp [Norm.take, hf, hhead, htl]
    rw [htake]
    refine ⟨.between (Nat.succ_pos 0) (by omega) ⟨rfl, hsession, hbytes, rfl⟩ ⟨hq1, hq2, hq3⟩ hs hc hn, ?_⟩
    rw [hrank]
    simp [Norm.passRank, hs, hc, show 0 < d by omega]
  · have hf : s.frameActive = true := hj.trans (decide_eq_true hj0)
    have hmeta := hm hf
    have htake : s.take b = { s with
        frameActive := true
        linebuf := fun k => if k = s.nlines.setWidth 8 then b.payload else s.linebuf k
        hold := b.payload
        nlines := s.nlines + 1
        lastSeen := b.tlast
        scanIdx := 0
        scanning := true } := by
      simp [Norm.take, hf]
    rw [htake]
    refine ⟨.scan (by omega) hlt ⟨rfl, hmeta.respSession, hmeta.reqBytes, hmeta.sawHeader⟩
      ⟨hq1, hq2, hq3⟩ hs rfl ?_ ?_, ?_⟩
    · show (s.nlines + 1).toNat = _
      rw [toNat_succ (by omega)]
      omega
    · rw [show (s.tick _).lastSeen = b.tlast from rfl, hlast]
      exact decide_eq_decide.mpr (by omega)
    · rw [hrank]
      simp [Norm.passRank, hs]
      omega

/-- A word is compared. -/
theorem norm_scan {s : Norm} {j : Nat} (h0 : 1 < j) (hj : j ≤ d + 1) (hm : NormMeta d session s)
    (hq : s.Still) (hs : s.state = .rx) (hc : s.scanning = true) (hn : s.nlines.toNat = j - 1)
    (hl : s.lastSeen = decide (j = d + 1)) :
    NormServing d session j (s.tick (s.scan s)) [] ∧ (s.scan s).passRank d j < s.passRank d j := by
  have hx := s.scanIdx.isLt
  obtain ⟨hm1, hm2, hm3, hm4⟩ := hm
  obtain ⟨hq1, hq2, hq3⟩ := hq
  have hrank : s.passRank d j = 20 * (d + 1 - j) + (16 - s.scanIdx.toNat) + (40 * d + 2) := by
    simp [Norm.passRank, hs, hc]
  by_cases hend : s.scanIdx = 15
  · have h15 : s.scanIdx.toNat = 15 := congrArg BitVec.toNat hend
    have hscan : (s.scan s).scanning = false := if_pos hend
    by_cases hlast : j = d + 1
    · rw [decide_eq_true hlast] at hl
      have hstate : (s.scan s).state = .range := if_pos ⟨hend, hl⟩
      subst hlast
      refine ⟨.range ⟨hm1, hm2, hm3, hm4⟩ ⟨hq1, hq2, hq3⟩ hstate hscan hn, ?_⟩
      rw [hrank, Norm.passRank, hstate]
      show 40 * d + 1 < _
      omega
    · rw [decide_eq_false hlast] at hl
      have hstate : (s.scan s).state = .rx := (if_neg fun e => by rw [hl] at e; cases e.2).trans hs
      refine ⟨.between (by omega) (by omega) ⟨hm1, hm2, hm3, hm4⟩ ⟨hq1, hq2, hq3⟩ hstate hscan hn, ?_⟩
      rw [hrank]
      simp [Norm.passRank, hstate, hscan]
      split <;> omega
  · have hscan : (s.scan s).scanning = true := (if_neg hend).trans hc
    have hstate : (s.scan s).state = .rx := (if_neg fun e => hend e.1).trans hs
    have hne : s.scanIdx.toNat ≠ 15 := fun e => hend (BitVec.eq_of_toNat_eq e)
    have hidx : (s.scan s).scanIdx.toNat = s.scanIdx.toNat + 1 := toNat_succ (x := s.scanIdx) (by omega)
    refine ⟨.scan h0 hj ⟨hm1, hm2, hm3, hm4⟩ ⟨hq1, hq2, hq3⟩ hstate hscan hn hl, ?_⟩
    rw [hrank]
    simp [Norm.passRank, hstate, hscan, hidx]
    omega

/-- The range is measured. -/
theorem norm_range (hd : 1 ≤ d) {s : Norm} (hm : NormMeta d session s) (hq : s.Still)
    (hs : s.state = .range) (hc : s.scanning = false) (hn : s.nlines.toNat = d) (c : NormCores) :
    NormServing d session (d + 1) (s.tick (s.measure c s)) [] ∧
      (s.measure c s).passRank d (d + 1) ≤ s.passRank d (d + 1) ∧
      (c.subResValid = true → (s.measure c s).passRank d (d + 1) < s.passRank d (d + 1)) := by
  obtain ⟨hm1, hm2, hm3, hm4⟩ := hm
  obtain ⟨hq1, hq2, hq3⟩ := hq
  have hrank : s.passRank d (d + 1) = 40 * d + 1 := by rw [Norm.passRank, hs]
  cases hv : c.subResValid with
  | false =>
      have hmeasure : s.measure c s =
          { s with rangeIssued := if s.subFire c then true else s.rangeIssued } := by
        simp [Norm.measure, hv]
      rw [hmeasure]
      refine ⟨.range ⟨hm1, hm2, hm3, hm4⟩ ⟨hq1, hq2, hq3⟩ hs hc hn, le_of_eq ?_, nofun⟩
      rw [hrank, Norm.passRank]
      simp only [hs]
  | true =>
      have hmeasure : s.measure c s = { s with
          rangeIssued := if s.subFire c then true else s.rangeIssued
          range := c.subResData
          state := .norm
          repLine := 0
          repIdx := 0
          repLoaded := false
          issuing := true
          packIdx := 0 } := by
        simp [Norm.measure, hv]
      rw [hmeasure]
      have hlt : Norm.passRank d (d + 1) { s with
          rangeIssued := if s.subFire c then true else s.rangeIssued
          range := c.subResData
          state := .norm
          repLine := 0
          repIdx := 0
          repLoaded := false
          issuing := true
          packIdx := 0 } < s.passRank d (d + 1) := by
        rw [hrank]
        simp [Norm.passRank, Norm.lineRank, fillRank, hq1]
        omega
      refine ⟨.line ⟨hm1, hm2, hm3, hm4⟩ rfl hc hn hd (.fill ?_ (fun _ => rfl) hq1) Partial.nil,
        hlt.le, fun _ => hlt⟩
      show s.outstanding.toNat + 0 = 0
      rw [hq2]
      rfl

/-! ### The second pass -/

/-- **What a line of the second pass sees of an edge.** -/
structure NormStep (s : Norm) (c : NormCores) (s' : Norm) : Prop where
  words : FillStep (s.subFire c) (s.resultFire c) s.issuing s.repIdx s.packIdx s.outstanding
    s'.issuing s'.repIdx s'.packIdx s'.outstanding
  repLoaded : s'.repLoaded = (s.issuing || s.repLoaded)
  respValid : s'.respValid = (s.resultFire c && decide (s.packIdx = 15) || s.respValid)
  respLast : s'.respLast =
    if s.resultFire c && decide (s.packIdx = 15) then s.repLine == s.nlines - 1 else s.respLast
  state : s'.state = .norm
  scanning : s'.scanning = false
  nlines : s'.nlines = s.nlines
  repLine : s'.repLine = s.repLine

theorem subFire_norm {s : Norm} {c : NormCores} (hs : s.state = .norm) :
    s.subFire c = (s.issuing && s.repLoaded && c.subAReady && c.subBReady) := by
  rw [Norm.subFire, hs]
  rfl

theorem subFire_issuing {s : Norm} {c : NormCores} (hs : s.state = .norm) (h : s.subFire c = true) :
    s.issuing = true := by
  rw [subFire_norm hs, Bool.and_eq_true, Bool.and_eq_true, Bool.and_eq_true] at h
  exact h.1.1.1

/-- An edge of the second pass at which no response leaves. -/
theorem norm_step {s : Norm} (hs : s.state = .norm) (hc : s.scanning = false) {t : Bool}
    (hr : (s.respValid && t) = false) (o : Option SlotBeat) (c : NormCores) :
    NormStep s c (s.edge o t c) ∧ ∀ {d session}, NormMeta d session s →
      NormMeta d session (s.edge o t c) := by
  have h0 : s.tready = false := by rw [Norm.tready, hs]; rfl
  have h2 : s.state ≠ .range := by rw [hs]; exact Pass.noConfusion
  have hnot : (s.issuing && !s.repLoaded) = true → s.subFire c = false := by
    intro h
    rw [Bool.and_eq_true, Bool.not_eq_true'] at h
    rw [subFire_norm hs, h.1, h.2]
    rfl
  unfold Norm.edge
  simp only [h0, hc, hr, if_neg h2, if_pos hs, Bool.false_eq_true, if_false, Norm.replay]
  rw [show (s.state == Pass.norm) = true by rw [hs]; rfl, Bool.and_true]
  cases hl : s.issuing && !s.repLoaded with
  | true =>
      rw [hnot hl]
      rw [Bool.and_eq_true, Bool.not_eq_true'] at hl
      refine ⟨⟨⟨?_, ?_, ?_, ?_⟩, ?_, ?_, ?_, ?_, ?_, ?_, ?_⟩, fun ⟨h1, h2, h3, h4⟩ => ⟨?_, ?_, ?_, ?_⟩⟩ <;>
        cases s.resultFire c <;> simp [Norm.pack, *]
  | false =>
      have hload : (s.issuing || s.repLoaded) = s.repLoaded := by
        revert hl
        cases s.issuing <;> cases s.repLoaded <;> simp
      refine ⟨⟨⟨?_, ?_, ?_, ?_⟩, ?_, ?_, ?_, ?_, ?_, ?_, ?_⟩, fun ⟨h1, h2, h3, h4⟩ => ⟨?_, ?_, ?_, ?_⟩⟩ <;>
        cases s.resultFire c <;> cases s.subFire c <;> simp [Norm.pack, *]

/-- **One edge of a line whose words are on their way.** -/
theorem norm_fill {s s' : Norm} {last : Bool} {c : NormCores} (hstep : NormStep s c s')
    (hs : s.state = .norm) (hf : Filling s.issuing s.repIdx s.packIdx s.outstanding)
    (hl : s.repLoaded = false → s.issuing = true) (hr : s.respValid = false)
    (hlast : (s.repLine == s.nlines - 1) = last) (t : Bool) :
    NormLine last s' ∧ s'.lineRank ≤ s.lineRank ∧
      (s.willing t c = true → s'.lineRank < s.lineRank) := by
  have hrank : s.lineRank =
      fillRank s.issuing s.repIdx s.packIdx + (if s.repLoaded then 1 else 2) := by
    rw [Norm.lineRank, hr, if_neg Bool.false_ne_true]
  have hloaded : s'.repLoaded = true := by
    rw [hstep.repLoaded]
    cases h : s.repLoaded with
    | true => exact Bool.or_true _
    | false => rw [hl h]; rfl
  have hvalid := hstep.respValid
  rw [hr, Bool.or_false] at hvalid
  cases hend : s.resultFire c && decide (s.packIdx = 15) with
  | false =>
      obtain ⟨hfill, hdrop⟩ := filling_goes hstep.words hf (subFire_issuing hs) owed_pos hend
      have hrank' : s'.lineRank = fillRank s'.issuing s'.repIdx s'.packIdx + 1 := by
        rw [Norm.lineRank, hvalid, hend, hloaded]
        rfl
      refine ⟨.fill hfill (fun e => by rw [hloaded] at e; cases e) (hvalid.trans hend), ?_, fun hw => ?_⟩
      · rw [hrank, hrank']
        split <;> omega
      · cases hload : s.repLoaded with
        | false =>
            rw [hload, if_neg Bool.false_ne_true] at hrank
            omega
        | true =>
            rw [hload, if_pos rfl] at hrank
            simp only [Norm.willing, hs, hr, hload, Bool.not_true, Bool.false_or,
              Bool.false_eq_true, if_false] at hw
            -- a willing edge issues a word or brings a result that is owed
            cases hi : s.issuing with
            | true =>
                have hfire : s.subFire c = true := by
                  rw [hi, if_pos rfl] at hw
                  rw [subFire_norm hs, hi, hload]
                  simpa using hw
                rw [hfire, show true.toNat = 1 from rfl] at hdrop
                omega
            | false =>
                rw [hi] at hw hf
                have hres : s.resultFire c = true := by
                  rw [Norm.resultFire, Bool.and_eq_true, bne_iff_ne]
                  exact ⟨hw, filling_owes hf⟩
                rw [hres, show true.toNat = 1 from rfl] at hdrop
                omega
  | true =>
      obtain ⟨-, h1, h2, h3⟩ := filling_ends hstep.words hf (subFire_issuing hs) owed_pos hend
      have hlast' := hstep.respLast
      rw [hend, if_pos rfl, hlast] at hlast'
      have hrank' : s'.lineRank = 1 := by
        rw [Norm.lineRank, hvalid, hend]
        rfl
      have hlt : s'.lineRank < s.lineRank := by
        have hp := s.packIdx.isLt
        have hone : 1 ≤ if s.repLoaded then 1 else 2 := by split <;> omega
        rw [hrank', hrank, fillRank]
        omega
      exact ⟨.answer h1 (hvalid.trans hend) hlast' h3 h2, hlt.le, fun _ => hlt⟩

/-- A response that is not accepted stays. -/
theorem norm_answer {s s' : Norm} {last : Bool} {c : NormCores} (hstep : NormStep s c s')
    (hs : s.state = .norm) (hi : s.issuing = false) (hr : s.respValid = true)
    (hl : s.respLast = last) (ho : s.outstanding = 0) (hp : s.packIdx = 0) :
    NormLine last s' ∧ s'.lineRank ≤ s.lineRank := by
  have hf : s.resultFire c = false := by rw [Norm.resultFire, ho]; exact Bool.and_false _
  have hg : s.subFire c = false := by rw [subFire_norm hs, hi]; rfl
  obtain ⟨⟨e2, -, e4, e8⟩, -, e5, e6, -⟩ := hstep
  simp only [hf, hg, hi, hr, ho, hp, hl, Bool.false_and, Bool.and_false, Bool.false_or,
    Bool.false_eq_true, if_false, Bool.not_false] at e2 e4 e5 e6 e8
  refine ⟨.answer e2 e5 e6 e8 e4, ?_⟩
  rw [Norm.lineRank, Norm.lineRank, e5, hr, if_pos rfl, if_pos rfl]

/-- **One edge of a line of the second pass.** -/
theorem norm_line {s s' : Norm} {last : Bool} (h : NormLine last s) {c : NormCores}
    (hstep : NormStep s c s') (hs : s.state = .norm) (hlast : (s.repLine == s.nlines - 1) = last)
    {t : Bool} (hr : (s.respValid && t) = false) :
    NormLine last s' ∧ s'.lineRank ≤ s.lineRank ∧
      (s.willing t c = true → s'.lineRank < s.lineRank) := by
  cases h with
  | fill hf hl hr' => exact norm_fill hstep hs hf hl hr' hlast t
  | answer hi hr' hl ho hp =>
      obtain ⟨h1, h2⟩ := norm_answer hstep hs hi hr' hl ho hp
      refine ⟨h1, h2, fun hw => ?_⟩
      rw [hr', Bool.true_and] at hr
      simp only [Norm.willing, hs, hr', if_true, hr] at hw
      cases hw

/-- The response of a line is accepted. -/
theorem norm_accept {s : Norm} (hs : s.state = .norm) (hc : s.scanning = false)
    (hi : s.issuing = false) (hr : s.respValid = true) (ho : s.outstanding = 0)
    (o : Option SlotBeat) (c : NormCores) : s.edge o true c = s.accept (s.tick s) := by
  have h0 : s.tready = false := by rw [Norm.tready, hs]; rfl
  have h1 : s.subFire c = false := by rw [subFire_norm hs, hi]; rfl
  have h2 : s.resultFire c = false := by rw [Norm.resultFire, ho]; exact Bool.and_false _
  have h3 : s.state ≠ .range := by rw [hs]; exact Pass.noConfusion
  unfold Norm.edge
  simp only [h0, h1, h2, hc, hr, hi, if_neg h3, if_pos hs, Bool.false_eq_true, if_false, Norm.replay,
    Bool.false_and, Bool.true_and, if_true, Bool.not_false, Norm.tick]

/-- The line played back is the last one. -/
theorem norm_last {s : Norm} (hn : s.nlines.toNat = d) (hlt : s.repLine.toNat < d) :
    (s.repLine == s.nlines - 1) = decide (s.repLine.toNat + 1 = d) := by
  have hpred : (s.nlines - 1).toNat = d - 1 := by rw [toNat_pred (by omega), hn]
  rw [beq_eq_decide]
  refine decide_eq_decide.mpr ⟨fun e => ?_, fun e => BitVec.eq_of_toNat_eq ?_⟩
  · have := congrArg BitVec.toNat e
    omega
  · omega

/-- What the accepted response of a line leaves behind. -/
theorem norm_sends {s : Norm} {out : List SlotBeat} (hm : NormMeta d session s)
    (hs : s.state = .norm) (hc : s.scanning = false) (hn : s.nlines.toNat = d)
    (hlt : s.repLine.toNat < d) (hr : s.respValid = true)
    (hl : s.respLast = decide (s.repLine.toNat + 1 = d)) (ho : s.outstanding = 0)
    (hp : s.packIdx = 0) (hout : Partial s.repLine.toNat out) :
    NormServing d session (d + 1) (s.accept (s.tick s)) (out ++ [s.response]) ∧
      (s.accept (s.tick s)).passRank d (d + 1) < s.passRank d (d + 1) := by
  have hrank : s.passRank d (d + 1) = 40 * (d - 1 - s.repLine.toNat) + 1 := by
    simp [Norm.passRank, Norm.lineRank, hs, hr]
  have hbytes : s.response.bytes.toNat = 64 * d := by
    show (s.reqBytes - (if s.sawHeader then 64 else 0)).toNat = _
    rw [hm.sawHeader, if_pos rfl]
    exact less_header hm.reqBytes
  by_cases hlast : s.repLine.toNat + 1 = d
  · rw [decide_eq_true hlast] at hl
    have hacc : s.accept (s.tick s) = { s.tick s with
        respValid := false
        state := .rx
        nlines := 0
        frameActive := false
        lastSeen := false
        maxKey := 0
        minKey := 0xFFFFFFFF } := by rw [Norm.accept, if_pos hl]
    have hframe : IsFrame d session (out ++ [s.response]) :=
      hlast ▸ hout.frame hl (by rw [hbytes, hlast]) hm.respSession
    rw [hacc, hrank]
    refine ⟨.done ⟨rfl, hc, rfl, rfl, rfl, ho, hp⟩ hframe, ?_⟩
    simp [Norm.passRank, Norm.tick, hc]
  · rw [decide_eq_false hlast] at hl
    have hacc : s.accept (s.tick s) = { s.tick s with
        respValid := false
        repLine := s.repLine + 1
        repIdx := 0
        repLoaded := false
        issuing := true } := by rw [Norm.accept, hl, if_neg Bool.false_ne_true]
    have hnext : (s.repLine + 1).toNat = s.repLine.toNat + 1 := by
      have := s.nlines.isLt
      exact toNat_succ (by omega)
    obtain ⟨hm1, hm2, hm3, hm4⟩ := hm
    rw [hacc, hrank]
    refine ⟨.line ⟨hm1, hm2, hm3, hm4⟩ hs hc hn ?_ (.fill ?_ (fun _ => rfl) rfl) ?_, ?_⟩
    · show (s.repLine + 1).toNat < d
      omega
    · show s.outstanding.toNat + s.packIdx.toNat = 0
      rw [ho, hp]
      rfl
    · show Partial (s.repLine + 1).toNat _
      rw [hnext]
      exact hout.snoc hl
    · simp only [Norm.passRank, Norm.lineRank, Norm.tick, fillRank, hs, hp, hnext]
      simp
      omega

/-! ## 3. The service -/

/-- What an edge owes to a request of `norm`. -/
def NormAdvance (d : Nat) (session : BitVec 16) (bs : List SlotBeat) : Nat → Norm → List SlotBeat →
    Option SlotBeat → Bool → NormCores → Prop :=
  Advance normSlot bs (NormServing d session) fun j s => Norm.rank d j s

/-- An edge that takes and sends nothing advances the request when the pass does, or at least the
    countdown. -/
theorem norm_silent {j : Nat} {s s' : Norm} {out : List SlotBeat} {o : Option SlotBeat} {t : Bool}
    {c : NormCores} (hedge : s.edge o t c = s.tick s') (ht : (if s.tready then o else none) = none)
    (hr : (s.respValid && t) = false) (hinv : NormServing d session j (s.tick s') out)
    (hle : s'.passRank d j ≤ s.passRank d j)
    (hlt : o = bs[j]? → s.willing t c = true → s.rank d j ≠ 0 →
      s'.passRank d j < s.passRank d j ∨ s.flushCnt.toNat ≠ 0) :
    NormAdvance d session bs j s out o t c := by
  have hflush := norm_flush s o t c
  have hpass : (s.edge o t c).passRank d j = s'.passRank d j := by rw [hedge]; rfl
  refine .silent ht ?_ ?_ ?_ fun hb hw h0 => ?_
  · show (if s.respValid && t then some s.response else none) = none
    rw [hr]
    rfl
  · rw [show normSlot.edge s o t c = s.edge o t c from rfl, hedge]
    exact hinv
  · show (s.edge o t c).rank d j ≤ s.rank d j
    rw [Norm.rank, Norm.rank, hflush, hpass]
    omega
  · have := hlt hb hw h0
    show (s.edge o t c).rank d j < s.rank d j
    rw [Norm.rank, Norm.rank, hflush, hpass]
    omega

/-- A module in its first pass takes what it is offered, once it has counted down. -/
theorem norm_ready (h : IsRequest d session bs) (hd : 1 ≤ d) (hd' : d ≤ 256) {j : Nat} {s : Norm}
    (hwait : NormServing d session j (s.tick s) []) (hq : s.Still) (hs : s.state = .rx)
    (hc : s.scanning = false) (hn : s.nlines.toNat = j - 1) (hj : s.frameActive = decide (j ≠ 0))
    (hm : s.frameActive = true → NormMeta d session s) (hlt : j < d + 1) {o : Option SlotBeat}
    (t : Bool) (c : NormCores) (hoff : o = none ∨ o = bs[j]?) :
    NormAdvance d session bs j s [] o t c := by
  have hr : (s.respValid && t) = false := by rw [hq.respValid]; rfl
  have hedge := norm_between hq hs hc o t c
  cases o with
  | none =>
      rw [ite_self] at hedge
      refine norm_silent hedge (ite_self _) hr hwait le_rfl fun hnone => ?_
      have hlen := List.getElem?_eq_none_iff.mp hnone.symm
      have := h.length
      omega
  | some b =>
      have hb : bs[j]? = some b := (hoff.resolve_left (Option.some_ne_none b)).symm
      cases ht : s.tready with
      | false =>
          rw [ht] at hedge
          refine norm_silent hedge (by rw [ht]; rfl) hr hwait le_rfl fun _ _ _ => Or.inr fun hzero => ?_
          have hz : s.flushCnt = 0 := BitVec.eq_of_toNat_eq hzero
          have hroom : s.nlines < 256 := by
            show s.nlines.toNat < 256
            omega
          rw [Norm.tready, hs, hc, hz, decide_eq_true hroom] at ht
          cases ht
      | true =>
          rw [ht, if_pos rfl] at hedge
          obtain ⟨h1, h2⟩ := norm_take h hd hd' hb hq hs hc hn hj hm
          have hflush := norm_flush s (some b) t c
          refine .take (b := b) ?_ ?_ ?_ ?_
          · show (if s.tready then some b else none) = some b
            rw [ht]
            rfl
          · show (if s.respValid && t then some s.response else none) = none
            rw [hr]
            rfl
          · rw [show normSlot.edge s (some b) t c = s.edge (some b) t c from rfl, hedge]
            exact h1
          · have hpass : (s.edge (some b) t c).passRank d (j + 1) = (s.take b).passRank d (j + 1) := by
              rw [hedge]
              rfl
            show (s.edge (some b) t c).rank d (j + 1) < s.rank d j
            rw [Norm.rank, Norm.rank, hflush, hpass]
            omega

theorem norm_edge (h : IsRequest d session bs) (hd : 1 ≤ d) (hd' : d ≤ 256) {j : Nat} {s : Norm}
    {out : List SlotBeat} (hinv : NormServing d session j s out) (o : Option SlotBeat) (t : Bool)
    (c : NormCores) (hoff : o = none ∨ o = bs[j]?) : NormAdvance d session bs j s out o t c := by
  cases hinv with
  | fresh hs =>
      obtain ⟨h1, h2, h3, h4, h5, h6, h7⟩ := hs
      exact norm_ready h hd hd' (.fresh ⟨h1, h2, h3, h4, h5, h6, h7⟩) ⟨h5, h6, h7⟩ h1 h2 (by rw [h3]; rfl)
        (by rw [h4]; rfl) (fun e => by rw [h4] at e; cases e) (Nat.succ_pos d) t c hoff
  | between h0 hj hm hq hs hc hn =>
      obtain ⟨hm1, hm2, hm3, hm4⟩ := hm
      obtain ⟨hq1, hq2, hq3⟩ := hq
      exact norm_ready h hd hd' (.between h0 hj ⟨hm1, hm2, hm3, hm4⟩ ⟨hq1, hq2, hq3⟩ hs hc hn)
        ⟨hq1, hq2, hq3⟩ hs hc hn (by rw [hm1, decide_eq_true h0.ne']) (fun _ => ⟨hm1, hm2, hm3, hm4⟩) hj
        t c hoff
  | scan h0 hj hm hq hs hc hn hl =>
      obtain ⟨h1, h2⟩ := norm_scan h0 hj hm hq hs hc hn hl
      have ht : s.tready = false := by rw [Norm.tready, hs, hc]; rfl
      exact norm_silent (norm_compare hq hs hc o t c) (by rw [ht]; rfl) (by rw [hq.respValid]; rfl) h1
        h2.le fun _ _ _ => Or.inl h2
  | range hm hq hs hc hn =>
      obtain ⟨h1, h2, h3⟩ := norm_range hd hm hq hs hc hn c
      have ht : s.tready = false := by rw [Norm.tready, hs]; rfl
      refine norm_silent (norm_measure hq hs hc o t c) (by rw [ht]; rfl) (by rw [hq.respValid]; rfl) h1
        h2 fun _ hw _ => Or.inl (h3 ?_)
      rw [Norm.willing, hs] at hw
      exact hw
  | line hm hs hc hn hlt hl hout =>
      have htaken : normSlot.taken s o t = none := by
        show (if s.tready then o else none) = none
        rw [Norm.tready, hs]
        rfl
      have hflush := norm_flush s o t c
      cases hacc : s.respValid && t with
      | false =>
          obtain ⟨hstep, hmeta⟩ := norm_step hs hc hacc o c
          obtain ⟨h1, h2, h3⟩ := norm_line hl hstep hs (norm_last hn hlt) hacc
          have hpass : s.passRank d (d + 1) = 40 * (d - 1 - s.repLine.toNat) + s.lineRank := by
            rw [Norm.passRank, hs]
          have hpass' : (s.edge o t c).passRank d (d + 1) =
              40 * (d - 1 - s.repLine.toNat) + (s.edge o t c).lineRank := by
            rw [Norm.passRank, hstep.state, hstep.repLine]
          refine .silent htaken ?_ (.line (hmeta hm) hstep.state hstep.scanning ?_ ?_ ?_ ?_) ?_ fun _ hw _ => ?_
          · show (if s.respValid && t then some s.response else none) = none
            rw [hacc]
            rfl
          · exact (congrArg BitVec.toNat hstep.nlines).trans hn
          · exact (congrArg BitVec.toNat hstep.repLine).trans_lt hlt
          · rw [show (normSlot.edge s o t c).repLine = s.repLine from hstep.repLine]
            exact h1
          · rw [show (normSlot.edge s o t c).repLine = s.repLine from hstep.repLine]
            exact hout
          · show (s.edge o t c).rank d (d + 1) ≤ s.rank d (d + 1)
            rw [Norm.rank, Norm.rank, hflush]
            omega
          · have hlt := h3 hw
            show (s.edge o t c).rank d (d + 1) < s.rank d (d + 1)
            rw [Norm.rank, Norm.rank, hflush]
            omega
      | true =>
          rw [Bool.and_eq_true] at hacc
          obtain ⟨hr, rfl⟩ := hacc
          cases hl with
          | fill _ _ hr' => rw [hr'] at hr; cases hr
          | answer hi _ hl ho hp =>
              have hedge := norm_accept hs hc hi hr ho o c
              obtain ⟨h1, h2⟩ := norm_sends hm hs hc hn hlt hr hl ho hp hout
              rw [← hedge] at h1 h2
              refine .send (b := s.response) htaken ?_ h1 ?_
              · show (if s.respValid && true then some s.response else none) = some s.response
                rw [hr]
                rfl
              · show (s.edge o true c).rank d (d + 1) < s.rank d (d + 1)
                rw [Norm.rank, Norm.rank, hflush]
                omega
  | done hs hout =>
      have hnil : bs[d + 1]? = none := List.getElem?_eq_none_iff.mpr h.length.le
      obtain rfl : o = none := hoff.elim id fun e => e.trans hnil
      obtain ⟨h1, h2, h3, h4, h5, h6, h7⟩ := hs
      have hedge := norm_between ⟨h5, h6, h7⟩ h1 h2 none t c
      rw [ite_self] at hedge
      refine norm_silent hedge (ite_self _) (by rw [h5]; rfl)
        (.done ⟨h1, h2, h3, h4, h5, h6, h7⟩ hout) le_rfl fun _ _ h0 => Or.inr ?_
      simpa [Norm.rank, Norm.passRank, h1, h2] using h0

theorem norm_start {s : Norm} (hs : s.Idle) : s.rank d 0 ≤ 255 + 20 * (d + 1) + (40 * d + 2) := by
  have hf := s.flushCnt.isLt
  simp only [Norm.rank, Norm.passRank, hs.state, hs.scanning]
  simp
  omega

theorem norm_finish {j : Nat} {s : Norm} {out : List SlotBeat} (h : NormServing d session j s out)
    (h0 : s.rank d j = 0) : IsFrame d session out ∧ s.Idle := by
  have hp := s.packIdx.isLt
  unfold Norm.rank Norm.passRank at h0
  cases h with
  | fresh hs => simp only [hs.state] at h0; omega
  | between _ hj _ _ hs => simp only [hs] at h0; omega
  | scan _ _ _ _ hs hc => simp [hs, hc] at h0
  | range _ _ hs => simp only [hs] at h0; omega
  | line _ hs _ _ _ hl =>
      simp only [hs, Norm.lineRank] at h0
      cases hl with
      | fill _ _ hr =>
          rw [hr, if_neg Bool.false_ne_true, fillRank] at h0
          omega
      | answer _ hr => rw [hr, if_pos rfl] at h0; omega
  | done hs hout => exact ⟨hout, hs⟩

/-- **`norm` answers a request of at most 256 data lines with one beat for each of them**, whatever its
    cores do. -/
def normService (h : IsRequest d session bs) (hd : 1 ≤ d) (hd' : d ≤ 256) :
    Service normSlot bs (IsFrame d session) where
  Inv := NormServing d session
  rank j s := Norm.rank d j s
  bound := 255 + 20 * (d + 1) + (40 * d + 2)
  start hs := ⟨.fresh hs, norm_start hs⟩
  edge hinv o t c hoff := norm_edge h hd hd' hinv o t c hoff
  finish hinv h0 := norm_finish hinv h0

end Request

end Frac.Slots
