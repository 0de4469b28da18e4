/-
  File:      Frac/Reconf/WriteHbm.lean
  Subject:   The memory a `WRITE_HBM` command leaves: payload lines cut into 32-byte halves, each
             written under partial strobes, over any stall of `s_axis`, AW, W and B.

  * `payload` -- the byte a sequence of payload lines holds at an index;
  * `WritePhase` -- where the write stands in each state, the memory always a `Mem.store` of the
    bytes written so far (`writePhase_since`);
  * `write_hbm_exact` -- once the command is answered, memory holds exactly the requested bytes
    and exactly the lines it takes are consumed.
-/
import Frac.Reconf.System

namespace Frac.Reconf

open Clocked Bits

variable {slotCount : Nat}

/-! ## 1. Lines, halves and strobes -/

/-- Byte `i` of a sequence of 64-byte payload lines. -/
def payload (lines : List (BitVec 512)) (i : Nat) : BitVec 8 :=
  byteAt (lines.getD (i / 64) 0) (i % 64)

theorem payload_append (lines : List (BitVec 512)) (l : BitVec 512) {i : Nat}
    (hi : i < 64 * lines.length) : payload (lines ++ [l]) i = payload lines i := by
  have hq : i / 64 < lines.length := by omega
  simp only [payload, List.getD_eq_getElem?_getD, List.getElem?_append_left hq]

/-- The bytes of the last line. -/
theorem payload_last (lines : List (BitVec 512)) (l : BitVec 512) {j : Nat} (hj : j < 64) :
    payload (lines ++ [l]) (64 * lines.length + j) = byteAt l j := by
  have hq : (64 * lines.length + j) / 64 = lines.length := by omega
  have hr : (64 * lines.length + j) % 64 = j := by omega
  simp [payload, hq, hr]

/-- Where the half `write_half_select` names begins in its line. -/
def halfOffset (half : Bool) : Nat := if half then 32 else 0

theorem halfOffset_addr (half : Bool) :
    (if half then addrIncr32 else 0) = BitVec.ofNat 33 (halfOffset half) := by
  cases half <;> rfl

theorem nextLineBytes_toNat (r : BitVec 64) : (nextLineBytes r).toNat = min 64 r.toNat := by
  unfold nextLineBytes
  by_cases h : 64 < r.toNat
  · rw [if_pos (show r > 64 from h), Nat.min_eq_left (Nat.le_of_lt h)]
    rfl
  · rw [if_neg (show ¬ r > 64 from h), BitVec.toNat_setWidth]
    omega

/-- A half of a line of at most 64 bytes: what is left of it from its offset on, 32 at most. -/
theorem writeBytesForHalf_toNat (l : BitVec 7) (half : Bool) (hl : l.toNat ≤ 64) :
    (writeBytesForHalf l half).toNat = min (l.toNat - halfOffset half) 32 := by
  have e32 : (32 : BitVec 6).toNat = 32 := rfl
  cases half with
  | false =>
      show (if l ≥ 32 then (32 : BitVec 6) else l.setWidth 6).toNat = min (l.toNat - 0) 32
      by_cases h : 32 ≤ l.toNat
      · rw [if_pos (show l ≥ 32 from h), e32]
        omega
      · rw [if_neg (show ¬ l ≥ 32 from h), BitVec.toNat_setWidth]
        omega
  | true =>
      show (if l ≥ 64 then (32 : BitVec 6) else if l > 32 then l.setWidth 6 - 32 else 0).toNat =
        min (l.toNat - 32) 32
      by_cases h : 64 ≤ l.toNat
      · rw [if_pos (show l ≥ 64 from h), e32]
        omega
      rw [if_neg (show ¬ l ≥ 64 from h)]
      by_cases h' : 32 < l.toNat
      · have hw : (l.setWidth 6).toNat = l.toNat := by
          rw [BitVec.toNat_setWidth]
          omega
        rw [if_pos (show l > 32 from h'), BitVec.toNat_sub_of_le, hw, e32]
        · omega
        · show 32 ≤ (l.setWidth 6).toNat
          omega
      · rw [if_neg (show ¬ l > 32 from h')]
        show 0 = _
        omega

theorem strobeForBytes_getLsbD (c : BitVec 6) (hc : c.toNat ≤ 32) (j : Nat) :
    (strobeForBytes c).getLsbD j = decide (j < c.toNat) := by
  rw [strobeForBytes, getLsbD_ofBits, ← Bool.decide_and]
  exact decide_eq_decide.mpr ⟨fun h => h.2, fun h => ⟨by omega, h⟩⟩

/-- The half of the line that goes out on W, byte by byte. -/
theorem halfData_byteAt (line : BitVec 512) (half : Bool) {j : Nat} (hj : j < 32) :
    byteAt (if half then line.extractLsb' 256 256 else line.extractLsb' 0 256) j =
      byteAt line (halfOffset half + j) := by
  cases half with
  | false => exact byteAt_extractLsb' line 0 32 j hj
  | true => exact byteAt_extractLsb' line 32 32 j hj

theorem executes_size_pos {t : BitVec 512} {op : BitVec 8} (hx : Executes slotCount t op) :
    0 < (cmdSize t).toNat := by
  have := hx.sizeNonzero
  simp only [cmdSizeNonzero, bne_iff_ne] at this
  exact Nat.pos_of_ne_zero fun e => this (BitVec.eq_of_toNat_eq (by simpa using e))

/-! ## 2. Where a write stands -/

/-- The first `p` payload bytes are in memory, and nothing else has changed. -/
def Written (h : Hist) (y : Sys slotCount) (p : Nat) : Prop :=
  y.mem = h.mem0.store h.addr (payload h.lines) p

/-- **Line `q` is being written**: it is the last line taken, and address, count and half are at
    its start. -/
structure InLine (h : Hist) (s : Ctrl slotCount) (q : Nat) : Prop where
  last : ∃ ls, h.lines = ls ++ [s.dataLine] ∧ ls.length = q
  more : 64 * q < (cmdSize h.cmd).toNat
  bytes : s.lineBytes.toNat = min 64 ((cmdSize h.cmd).toNat - 64 * q)
  addr : s.currentAddr = h.addr + BitVec.ofNat 33 (64 * q)
  left : s.remainingBytes.toNat = (cmdSize h.cmd).toNat - 64 * q
  half : s.halfSelect = true → 32 < s.lineBytes.toNat

/-- Where the half being written begins among the payload bytes. -/
def halfStart (s : Ctrl slotCount) (q : Nat) : Nat := 64 * q + halfOffset s.halfSelect

/-- **Where a write stands**, state by state. -/
inductive WritePhase (h : Hist) (y : Sys slotCount) : Prop where
  | wait (hs : y.ctrl.state = .writeWaitData)
      (hm : 64 * h.lines.length < (cmdSize h.cmd).toNat)
      (ha : y.ctrl.currentAddr = h.addr + BitVec.ofNat 33 (64 * h.lines.length))
      (hr : y.ctrl.remainingBytes.toNat = (cmdSize h.cmd).toNat - 64 * h.lines.length)
      (hw : Written h y (64 * h.lines.length))
  | addr (q : Nat) (hs : y.ctrl.state = .writeAddr) (hl : InLine h y.ctrl q)
      (hw : Written h y (halfStart y.ctrl q))
      (hp : y.ctrl.awvalid = true →
        y.ctrl.awaddr = h.addr + BitVec.ofNat 33 (halfStart y.ctrl q))
  | data (q : Nat) (hs : y.ctrl.state = .writeData) (hl : InLine h y.ctrl q)
      (hw : Written h y (halfStart y.ctrl q))
      (hp : y.aw = h.addr + BitVec.ofNat 33 (halfStart y.ctrl q))
      (hd : y.ctrl.wdata = if y.ctrl.halfSelect then y.ctrl.dataLine.extractLsb' 256 256
        else y.ctrl.dataLine.extractLsb' 0 256)
      (hb : y.ctrl.wstrb = strobeForBytes (writeBytesForHalf y.ctrl.lineBytes y.ctrl.halfSelect))
  | resp (q : Nat) (hs : y.ctrl.state = .writeResp) (hl : InLine h y.ctrl q)
      (hw : Written h y (halfStart y.ctrl q +
        min (y.ctrl.lineBytes.toNat - halfOffset y.ctrl.halfSelect) 32))
  | done (hs : y.ctrl.state = .sendStatus ∨ y.ctrl.state = .idle)
      (hw : Written h y (cmdSize h.cmd).toNat)
      (hn : h.lines.length = ((cmdSize h.cmd).toNat + 63) / 64)
      (ha : y.ctrl.mAxisTdata = Err.ok.code.setWidth 512)

/-- An edge that takes no line keeps the payload, one that writes nothing keeps the memory. -/
theorem written_hold {h : Hist} {y : Sys slotCount} {i : In} {p : Nat} (hw : Written h y p)
    (hsg : Signals y.ctrl) (hs : y.ctrl.state ≠ .writeData)
    (hl : (h.next y.ctrl i).lines = h.lines) : Written (h.next y.ctrl i) (y.clock i) p := by
  show (y.clock i).mem = h.mem0.store h.addr (payload (h.next y.ctrl i).lines) p
  rw [clock_mem_hold hsg hs i, hl]
  exact hw

theorem inLine_hold {h : Hist} {s s' : Ctrl slotCount} {i : In} {q : Nat} (hl : InLine h s q)
    (he : (h.next s i).lines = h.lines) (e1 : s'.dataLine = s.dataLine)
    (e2 : s'.lineBytes = s.lineBytes) (e3 : s'.currentAddr = s.currentAddr)
    (e4 : s'.remainingBytes = s.remainingBytes)
    (e5 : s'.halfSelect = true → 32 < s.lineBytes.toNat) : InLine (h.next s i) s' q where
  last := by rw [he, e1]; exact hl.last
  more := hl.more
  bytes := by rw [e2]; exact hl.bytes
  addr := by rw [e3]; exact hl.addr
  left := by rw [e4]; exact hl.left
  half := by rw [e2]; exact e5

theorem writePhase_start {y : Sys slotCount} {i : In}
    (hx : Executes slotCount i.sAxisTdata opWriteHbm)
    (hc : (y.clock i).ctrl = startWrite (idleRegs (latch y.ctrl i) false) i.sAxisTdata)
    (hm : (y.clock i).mem = y.mem) :
    WritePhase (Hist.start i.sAxisTdata y.mem) (y.clock i) := by
  refine .wait (by rw [hc]; rfl) (executes_size_pos hx) ?_ (by rw [hc]; rfl) hm
  rw [hc]
  show _ = (cmdAddr i.sAxisTdata).setWidth 33 + 0#33
  rw [BitVec.add_zero]
  rfl

/-! ## 3. One edge, phase by phase -/

section Step

variable {h : Hist} {y : Sys slotCount} {i : In} (hsg : Signals y.ctrl) (hrst : i.rst = false)
include hsg hrst

theorem writePhase_wait (hs : y.ctrl.state = .writeWaitData)
    (hm : 64 * h.lines.length < (cmdSize h.cmd).toNat)
    (ha : y.ctrl.currentAddr = h.addr + BitVec.ofNat 33 (64 * h.lines.length))
    (hr : y.ctrl.remainingBytes.toNat = (cmdSize h.cmd).toNat - 64 * h.lines.length)
    (hw : Written h y (64 * h.lines.length)) : WritePhase (h.next y.ctrl i) (y.clock i) := by
  have hnd : y.ctrl.state ≠ .writeData := by rw [hs]; decide
  obtain ⟨s', hs', hmv⟩ := clock_move y hrst
  cases hmv
  case waitLine ho he =>
    have hlines : (h.next y.ctrl i).lines = h.lines := next_lines_hold he
    refine .wait (by rw [hs']; exact hs) ?_ ?_ ?_ ?_ <;> rw [hlines]
    · exact hm
    · rw [hs']; exact ha
    · rw [hs']; exact hr
    · exact written_hold hw hsg hnd hlines
  case takeLine ho he =>
    have hlines : (h.next y.ctrl i).lines = h.lines ++ [i.sAxisTdata] := next_lines_take he
    refine .addr h.lines.length (by rw [hs']) ?_ ?_ ?_ <;> rw [hs']
    · refine ⟨⟨h.lines, hlines, rfl⟩, hm, ?_, ha, hr, fun e => by cases e⟩
      show (nextLineBytes y.ctrl.remainingBytes).toNat = _
      rw [nextLineBytes_toNat, hr]
      rfl
    · show (y.clock i).mem = h.mem0.store h.addr (payload (h.next y.ctrl i).lines)
        (64 * h.lines.length)
      rw [clock_mem_hold hsg hnd i, hlines, hw]
      exact Mem.store_congr _ _ _ fun j hj => (payload_append h.lines i.sAxisTdata hj).symm
    · intro hv
      have hv' : y.ctrl.awvalid = true := hv
      rw [hsg.awvalid (by rw [hs]; decide)] at hv'
      cases hv'
  all_goals simp_all

theorem writePhase_addr {q : Nat} (hs : y.ctrl.state = .writeAddr) (hl : InLine h y.ctrl q)
    (hw : Written h y (halfStart y.ctrl q))
    (hp : y.ctrl.awvalid = true → y.ctrl.awaddr = h.addr + BitVec.ofNat 33 (halfStart y.ctrl q)) :
    WritePhase (h.next y.ctrl i) (y.clock i) := by
  have hnd : y.ctrl.state ≠ .writeData := by rw [hs]; decide
  have hlines : (h.next y.ctrl i).lines = h.lines :=
    next_lines_hold (by rw [hsg.sAxisTready (by rw [hs]; rfl), Bool.and_false])
  have hw' := written_hold hw hsg hnd hlines
  have hadr : y.ctrl.currentAddr + (if y.ctrl.halfSelect then addrIncr32 else 0) =
      h.addr + BitVec.ofNat 33 (halfStart y.ctrl q) := by
    rw [hl.addr, halfOffset_addr, BitVec.add_assoc, ← BitVec.ofNat_add]
    rfl
  obtain ⟨s', hs', hmv⟩ := clock_move y hrst
  cases hmv
  case holdAw ho he =>
    refine .addr q (by rw [hs']; exact hs) ?_ ?_ ?_ <;> rw [hs']
    · exact inLine_hold hl hlines rfl rfl rfl rfl hl.half
    · exact hw'
    · exact fun _ => hadr
  case takeAw ho he =>
    refine .data q (by rw [hs']) ?_ ?_ ?_ ?_ ?_ <;> rw [hs']
    · exact inLine_hold hl hlines rfl rfl rfl rfl hl.half
    · exact hw'
    · show (if _ then _ else _) = _
      rw [if_pos he]
      exact hp (Bool.and_eq_true_iff.mp he).1
    · rfl
    · rfl
  all_goals simp_all

theorem writePhase_data {q : Nat} (hs : y.ctrl.state = .writeData) (hl : InLine h y.ctrl q)
    (hw : Written h y (halfStart y.ctrl q))
    (hp : y.aw = h.addr + BitVec.ofNat 33 (halfStart y.ctrl q))
    (hd : y.ctrl.wdata = if y.ctrl.halfSelect then y.ctrl.dataLine.extractLsb' 256 256
      else y.ctrl.dataLine.extractLsb' 0 256)
    (hb : y.ctrl.wstrb = strobeForBytes (writeBytesForHalf y.ctrl.lineBytes y.ctrl.halfSelect)) :
    WritePhase (h.next y.ctrl i) (y.clock i) := by
  have hlines : (h.next y.ctrl i).lines = h.lines :=
    next_lines_hold (by rw [hsg.sAxisTready (by rw [hs]; rfl), Bool.and_false])
  obtain ⟨s', hs', hmv⟩ := clock_move y hrst
  cases hmv
  case holdW ho he =>
    have hmem : (y.clock i).mem = y.mem := if_neg (Bool.eq_false_iff.mp he)
    have haw : (y.clock i).aw = y.aw := by
      show (if _ then _ else _) = _
      rw [hsg.awvalid (by rw [hs]; decide)]
      rfl
    refine .data q (by rw [hs']; exact hs) ?_ ?_ ?_ ?_ ?_ <;> rw [hs']
    · exact inLine_hold hl hlines rfl rfl rfl rfl hl.half
    · show (y.clock i).mem = h.mem0.store h.addr (payload (h.next y.ctrl i).lines) _
      rw [hmem, hlines]
      exact hw
    · rw [haw]; exact hp
    · exact hd
    · exact hb
  case takeW ho he =>
    refine .resp q (by rw [hs']) ?_ ?_ <;> rw [hs']
    · exact inLine_hold hl hlines rfl rfl rfl rfl hl.half
    -- the beat continues the store by the bytes its strobes select
    have hle : y.ctrl.lineBytes.toNat ≤ 64 := by have := hl.bytes; omega
    have hcount := writeBytesForHalf_toNat y.ctrl.lineBytes y.ctrl.halfSelect hle
    have hoff : halfOffset y.ctrl.halfSelect ≤ 32 := by cases y.ctrl.halfSelect <;> decide
    show (y.clock i).mem = h.mem0.store h.addr (payload (h.next y.ctrl i).lines) _
    rw [hlines]
    have hmem : (y.clock i).mem = y.mem.strobed (k := 32) y.aw y.ctrl.wdata y.ctrl.wstrb := if_pos he
    rw [hmem, hp, show y.mem = _ from hw]
    refine Mem.strobed_store _ _ _ _ _ (by omega) _ _ (fun j => ?_) (fun j hj => ?_)
    · rw [hb, strobeForBytes_getLsbD _ (by omega), hcount]
      rfl
    · have hj' : j < min (y.ctrl.lineBytes.toNat - halfOffset y.ctrl.halfSelect) 32 := hj
      obtain ⟨ls, hls, hlen⟩ := hl.last
      rw [hd, halfData_byteAt _ _ (by omega), hls, halfStart, ← hlen, Nat.add_assoc]
      exact (payload_last ls y.ctrl.dataLine (by omega)).symm
  all_goals simp_all

theorem writePhase_resp {q : Nat} (hok : WritesOkay y i) (hs : y.ctrl.state = .writeResp)
    (hl : InLine h y.ctrl q)
    (hw : Written h y (halfStart y.ctrl q +
      min (y.ctrl.lineBytes.toNat - halfOffset y.ctrl.halfSelect) 32)) :
    WritePhase (h.next y.ctrl i) (y.clock i) := by
  have hlines : (h.next y.ctrl i).lines = h.lines :=
    next_lines_hold (by rw [hsg.sAxisTready (by rw [hs]; rfl), Bool.and_false])
  have hnd : y.ctrl.state ≠ .writeData := by rw [hs]; decide
  have hw' := written_hold hw hsg hnd hlines
  have hbytes := hl.bytes
  have hmore := hl.more
  have hleft := hl.left
  -- the second half, or the only one, ends where the line ends
  have hend : y.ctrl.halfSelect = true ∨ y.ctrl.lineBytes ≤ 32 →
      halfStart y.ctrl q + min (y.ctrl.lineBytes.toNat - halfOffset y.ctrl.halfSelect) 32 =
        64 * q + y.ctrl.lineBytes.toNat := by
    intro hh
    unfold halfStart
    cases hsel : y.ctrl.halfSelect with
    | true =>
        have := hl.half hsel
        show 64 * q + 32 + min (y.ctrl.lineBytes.toNat - 32) 32 = _
        omega
    | false =>
        have h32 : y.ctrl.lineBytes.toNat ≤ 32 := by
          rcases hh with h1 | h1
          · rw [hsel] at h1; cases h1
          · exact h1
        show 64 * q + 0 + min (y.ctrl.lineBytes.toNat - 0) 32 = _
        omega
  have hlen : h.lines.length = q + 1 := by
    obtain ⟨ls, hls, hlen⟩ := hl.last
    rw [hls, List.length_append, hlen]
    rfl
  have hw64 : (y.ctrl.lineBytes.setWidth 64).toNat = y.ctrl.lineBytes.toNat := by
    rw [BitVec.toNat_setWidth]
    omega
  obtain ⟨s', hs', hmv⟩ := clock_move y hrst
  cases hmv
  case holdB ho he =>
    refine .resp q (by rw [hs']; exact hs) ?_ ?_ <;> rw [hs']
    · exact inLine_hold hl hlines rfl rfl rfl rfl hl.half
    · exact hw'
  case errB ho he hb => exact absurd (hok he) hb
  case nextHalf ho he hb hh hgt =>
    have hgt' : 32 < y.ctrl.lineBytes.toNat := hgt
    refine .addr q (by rw [hs']) ?_ ?_ ?_ <;> rw [hs']
    · exact inLine_hold hl hlines rfl rfl rfl rfl fun _ => hgt'
    · have e : halfStart y.ctrl q + min (y.ctrl.lineBytes.toNat - halfOffset y.ctrl.halfSelect) 32 =
          64 * q + 32 := by
        rw [halfStart, hh]
        show 64 * q + 0 + min (y.ctrl.lineBytes.toNat - 0) 32 = _
        omega
      rw [e] at hw'
      exact hw'
    · intro hv
      have hv' : y.ctrl.awvalid = true := hv
      rw [hsg.awvalid (by rw [hs]; decide)] at hv'
      cases hv'
  case writeDone ho he hb hh hle =>
    have hle' : y.ctrl.remainingBytes.toNat ≤ (y.ctrl.lineBytes.setWidth 64).toNat := hle
    have hall : 64 * q + y.ctrl.lineBytes.toNat = (cmdSize h.cmd).toNat := by omega
    rw [hend hh, hall] at hw'
    refine .done (by rw [hs']; exact Or.inl rfl) hw' ?_ (by rw [hs']; rfl)
    rw [hlines, hlen]
    show q + 1 = ((cmdSize h.cmd).toNat + 63) / 64
    omega
  case nextLine ho he hb hh hgt =>
    have hgt' : ¬ y.ctrl.remainingBytes.toNat ≤ (y.ctrl.lineBytes.setWidth 64).toNat := hgt
    have h64 : y.ctrl.lineBytes.toNat = 64 := by omega
    have hnext : 64 * q + 64 = 64 * (q + 1) := by omega
    rw [hend hh, h64, hnext] at hw'
    refine .wait (by rw [hs']) ?_ ?_ ?_ ?_ <;> rw [hlines, hlen]
    · show 64 * (q + 1) < (cmdSize h.cmd).toNat
      omega
    · rw [hs']
      show y.ctrl.currentAddr + y.ctrl.lineBytes.setWidth 33 = h.addr + _
      rw [hl.addr, BitVec.add_assoc, ← hnext, BitVec.ofNat_add]
      congr 2
      exact BitVec.eq_of_toNat_eq (by rw [BitVec.toNat_setWidth, h64]; rfl)
    · rw [hs']
      show (y.ctrl.remainingBytes - y.ctrl.lineBytes.setWidth 64).toNat =
        (cmdSize h.cmd).toNat - 64 * (q + 1)
      rw [BitVec.toNat_sub_of_le (Nat.le_of_not_le hgt'), hw64, hleft]
      omega
    · exact hw'
  -- the other moves start in other states
  all_goals
    clear hsg hok hl hw hw' hend
    simp_all

theorem writePhase_done (hacc : accepts y.ctrl i = false)
    (hs : y.ctrl.state = .sendStatus ∨ y.ctrl.state = .idle)
    (hw : Written h y (cmdSize h.cmd).toNat)
    (hn : h.lines.length = ((cmdSize h.cmd).toNat + 63) / 64)
    (ha : y.ctrl.mAxisTdata = Err.ok.code.setWidth 512) :
    WritePhase (h.next y.ctrl i) (y.clock i) := by
  have hnd : y.ctrl.state ≠ .writeData := by rcases hs with e | e <;> rw [e] <;> decide
  have hlines : (h.next y.ctrl i).lines = h.lines := by
    refine next_lines_hold ?_
    rcases hs with e | e
    · rw [hsg.sAxisTready (by rw [e]; rfl), Bool.and_false]
    · rw [← accepts_idle e]; exact hacc
  have hw' : Written (h.next y.ctrl i) (y.clock i) (cmdSize h.cmd).toNat :=
    written_hold hw hsg hnd hlines
  have hn' : (h.next y.ctrl i).lines.length = ((cmdSize h.cmd).toNat + 63) / 64 := by
    rw [hlines]; exact hn
  obtain ⟨s', hs', hmv⟩ := clock_move y hrst
  cases hmv
  case idleHold ho he => exact .done (by rw [hs']; exact Or.inr ho) hw' hn' (by rw [hs']; exact ha)
  case holdSend ho he => exact .done (by rw [hs']; exact hs) hw' hn' (by rw [hs']; exact ha)
  case takeSend ho he => exact .done (by rw [hs']; exact Or.inr rfl) hw' hn' (by rw [hs']; exact ha)
  all_goals rcases hs with e | e <;> simp_all [accepts]

/-- **One edge of a write**, in whatever phase it stands. -/
theorem writePhase_edge (hok : WritesOkay y i) (ha : accepts y.ctrl i = false)
    (hp : WritePhase h y) : WritePhase (h.next y.ctrl i) (y.clock i) := by
  cases hp with
  | wait hs hm ha hr hw => exact writePhase_wait hsg hrst hs hm ha hr hw
  | addr q hs hl hw hp => exact writePhase_addr hsg hrst hs hl hw hp
  | data q hs hl hw hp hd hb => exact writePhase_data hsg hrst hs hl hw hp hd hb
  | resp q hs hl hw => exact writePhase_resp hsg hrst hok hs hl hw
  | done hs hw hn hans => exact writePhase_done hsg hrst ha hs hw hn hans

end Step

/-- A write that is accepted. -/
theorem writePhase_accept {y : Sys slotCount} {i : In} (hsg : Signals y.ctrl) (hrst : i.rst = false)
    (ha : accepts y.ctrl i = true) (hx : Executes slotCount i.sAxisTdata opWriteHbm) :
    WritePhase (Hist.start i.sAxisTdata y.mem) (y.clock i) := by
  have hidle := (accepts_iff.mp ha).1
  have hmem := clock_mem_hold hsg (by rw [hidle]; decide) i
  rcases clock_executes hrst ha hx with ⟨-, hc⟩ | ⟨e, -⟩ | ⟨e, -⟩
  · exact writePhase_start hx hc hmem
  · exact absurd e (by decide)
  · exact absurd e (by decide)

theorem writePhase_since {mem : Mem 33} {y0 y : Sys slotCount} {i0 : In}
    (hs : Since WritesOkay mem y0 i0 y) {h : Hist} (hh : y.hist = some h)
    (hx : Executes slotCount h.cmd opWriteHbm) : WritePhase h y := by
  refine hs.invariant (P := fun h y => Executes slotCount h.cmd opWriteHbm → WritePhase h y)
    ?_ ?_ hh hx
  · exact fun _ _ hsg hrst ha hx => writePhase_accept hsg hrst ha hx
  · exact fun _ _ _ hsg hok hrst ha ih hx => writePhase_edge hsg hrst hok ha (ih hx)

/-! ## 4. The written memory -/

/-- **`WRITE_HBM` writes exactly the requested bytes.** Whatever came before the command, from its
    acceptance on, with every write answered OKAY and whatever stalls: when a status line is
    presented it is ERR_OK; byte `a + i` of memory, `i < n`, is payload byte `i`, the last such `i`
    where addresses wrap onto each other; every other byte is as it was; `⌈n / 64⌉` lines have
    been consumed, and no line is consumed while the answer waits. -/
theorem write_hbm_exact {mem : Mem 33} {y0 y : Sys slotCount} {i0 : In}
    (hs : Since WritesOkay mem y0 i0 y) {h : Hist} (hh : y.hist = some h)
    (hx : Executes slotCount h.cmd opWriteHbm) (hv : y.ctrl.mAxisTvalid = true) :
    y.ctrl.answers .ok ∧
    (∀ i < (cmdSize h.cmd).toNat,
      (∀ j, i < j → j < (cmdSize h.cmd).toNat →
        h.addr + BitVec.ofNat 33 j ≠ h.addr + BitVec.ofNat 33 i) →
      y.mem (h.addr + BitVec.ofNat 33 i) = byteAt (h.lines.getD (i / 64) 0) (i % 64)) ∧
    (∀ x, (∀ i < (cmdSize h.cmd).toNat, x ≠ h.addr + BitVec.ofNat 33 i) → y.mem x = h.mem0 x) ∧
    h.lines.length = ((cmdSize h.cmd).toNat + 63) / 64 ∧ y.ctrl.sAxisTready = false := by
  have hsg := signals_reachable hs.reachable
  have hsends := hsg.mAxisTvalid.symm.trans hv
  cases writePhase_since hs hh hx with
  | wait e => rw [e] at hsends; cases hsends
  | addr q e => rw [e] at hsends; cases hsends
  | data q e => rw [e] at hsends; cases hsends
  | resp q e => rw [e] at hsends; cases hsends
  | done e hw hn ha =>
      have hready : y.ctrl.sAxisTready = false := by
        rcases e with e | e
        · exact hsg.sAxisTready (by rw [e]; rfl)
        · rw [e] at hsends; cases hsends
      rw [show y.mem = _ from hw]
      exact ⟨⟨hv, ha⟩, fun i hi hlast => Mem.store_at _ _ _ _ i hi hlast,
        fun x hx => Mem.store_outside _ _ _ _ x hx, hn, hready⟩

/-- The edges of one beat: the address presented and taken, the data taken, the response OKAY. -/
def writeBeatEdges : List In :=
  [In.low, { In.low with awready := true }, { In.low with wready := true },
    { In.low with bvalid := true }]

/-- A line whose byte 32 is `0xab`, every other byte zero. -/
def markedLine : BitVec 512 := (0xab : BitVec 512) <<< 256

/-- 33 bytes at the last beat of the address space, so that byte 32 lands at address 0. -/
def wrapSys : Sys 2 :=
  run Sys.clock (Sys.offered countingMem (commandLine opWriteHbm 0 0x1ffffffe0 33))
    ([In.low, lineEdge markedLine] ++ writeBeatEdges ++ writeBeatEdges)

theorem write_hbm_exact_wrap :
    wrapSys.ctrl.answers .ok ∧ wrapSys.mem 0 = 0xab ∧ wrapSys.mem 1 = 1 := by
  have hs : Since WritesOkay countingMem (run Sys.clock (Sys.init 2 countingMem) [In.low])
      (lineEdge (commandLine opWriteHbm 0 0x1ffffffe0 33)) wrapSys :=
    Since.of_run _ _ _ rfl (by decide +kernel) (by decide +kernel)
  obtain ⟨hok, hin, hout, -, -⟩ := write_hbm_exact hs (hist_current (by decide +kernel))
    (by constructor <;> decide +kernel) (by decide +kernel)
  have hsize : (cmdSize wrapSys.current.cmd).toNat = 33 := by decide +kernel
  have haddr : wrapSys.current.addr = 0x1ffffffe0 := by decide +kernel
  have hmem0 : wrapSys.current.mem0 1 = 1 := by decide +kernel
  rw [hsize, haddr] at hin hout
  refine ⟨hok, (hin 32 (by decide) fun j h1 h2 => by omega).trans (by decide +kernel), ?_⟩
  exact (hout 1 (by decide)).trans hmem0

end Frac.Reconf
