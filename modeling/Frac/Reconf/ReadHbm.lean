/-
  File:      Frac/Reconf/ReadHbm.lean
  Subject:   What a `READ_HBM` command answers: one or two beats masked to the requested size, or
             the status of the beat that failed, over any stall of AR, R and `m_axis`; and what a
             read finds after a write.

  * `ReadBytes` -- a response line holds the first `n` bytes of memory from an address on, zeros
    behind them;
  * `ReadPhase` -- where the read stands in each state (`readPhase_run`);
  * `write_answered_ok` -- a write that is answered ERR_OK has stored its payload;
  * `read_hbm_exact` -- the answer of a read, its frame, and the bytes it finds after a write.
-/
import Frac.Reconf.Validation
import Frac.Reconf.WriteHbm

namespace Frac.Reconf

open Clocked Bits

variable {slotCount : Nat}

/-! ## 1. Beats, masks and counts -/

/-- One beat handshaken on R. -/
structure Beat where
  rdata : BitVec 256
  rresp : BitVec 2
  rlast : Bool
  deriving DecidableEq

/-- The beat handshaken at an edge. -/
def beatTaken (s : Ctrl slotCount) (i : In) : List Beat :=
  if i.rvalid && s.rready then [⟨i.rdata, i.rresp, i.rlast⟩] else []

/-- The status a beat is answered with, if it is not OKAY with RLAST. -/
def Beat.error (b : Beat) : Option Err :=
  if b.rresp ≠ 0 then some .axiRresp else if b.rlast then none else some .rlast

/-- A memory whose OKAY beats with RLAST are the stored ones; any other beat may hold anything. -/
def ReadsStored (y : Sys slotCount) (i : In) : Prop :=
  (i.rvalid && y.ctrl.rready) = true → i.rresp = 0 → i.rlast = true →
    i.rdata = y.mem.beat y.ar 32

instance (y : Sys slotCount) (i : In) : Decidable (ReadsStored y i) :=
  inferInstanceAs (Decidable (_ → _ → _ → _))

/-- The line holds the `n` bytes of `m` from `a` on, and zeros behind them. -/
def ReadBytes (m : Mem 33) (a : BitVec 33) (n : Nat) (line : BitVec 512) : Prop :=
  ∀ k < 64, byteAt line k = if k < n then m (a + BitVec.ofNat 33 k) else 0

theorem maskData256_byteAt (d : BitVec 256) (c : BitVec 6) {j : Nat} (hj : j < 32) :
    byteAt (maskData256 d c) j = if j < c.toNat then byteAt d j else 0 := by
  apply BitVec.eq_of_getLsbD_eq
  intro t ht
  simp only [byteAt, maskData256, BitVec.getLsbD_extractLsb', ht, decide_true, Bool.true_and,
    getLsbD_ofBits]
  rw [decide_eq_true (by omega), Bool.true_and, show (8 * j + t) / 8 = j by omega]
  by_cases h : j < c.toNat
  · rw [decide_eq_true h, if_pos h]
    simp [ht]
  · rw [decide_eq_false h, if_neg h]
    simp

theorem readFirstByteCount_toNat (n : BitVec 64) :
    (readFirstByteCount n).toNat = min n.toNat 32 := by
  unfold readFirstByteCount
  by_cases h : 32 ≤ n.toNat
  · rw [if_pos (show n ≥ 32 from h), Nat.min_eq_right h]
    rfl
  · rw [if_neg (show ¬ n ≥ 32 from h), BitVec.toNat_setWidth]
    omega

theorem readSecondByteCount_toNat (n : BitVec 64) (hn : 32 ≤ n.toNat) :
    (readSecondByteCount n).toNat = min (n.toNat - 32) 32 := by
  have hsub : (n - 32).toNat = n.toNat - 32 := BitVec.toNat_sub_of_le hn
  unfold readSecondByteCount
  by_cases h : 32 ≤ (n - 32).toNat
  · simp only [if_pos (show n - 32 ≥ 32 from h)]
    rw [← hsub, Nat.min_eq_right h]
    rfl
  · simp only [if_neg (show ¬ n - 32 ≥ 32 from h)]
    rw [BitVec.toNat_setWidth, hsub]
    omega

/-- The masked first beat of a read of at most 32 bytes is the whole answer. -/
theorem readBytes_one {m : Mem 33} {a : BitVec 33} {n : BitVec 64} (hn : n.toNat ≤ 32) :
    ReadBytes m a n.toNat ((0 : BitVec 256) ++ maskData256 (m.beat a 32) (readFirstByteCount n)) := by
  intro k hk
  have hc : (readFirstByteCount n).toNat = n.toNat := by
    rw [readFirstByteCount_toNat, Nat.min_eq_left hn]
  by_cases h : k < 32
  · rw [byteAt_append_low _ _ (by omega), maskData256_byteAt _ _ h, hc, Mem.byteAt_beat m a h]
  · obtain ⟨j, rfl⟩ := Nat.exists_eq_add_of_le (Nat.le_of_not_lt h)
    rw [byteAt_append_high (k := 32) _ _ rfl, if_neg (by omega)]
    simp [byteAt]

/-- The first 32 bytes stand in the low half of the collected line. -/
def LowHalf (m : Mem 33) (a : BitVec 33) (line : BitVec 512) : Prop :=
  ∀ k < 32, byteAt (line.extractLsb' 0 256) k = m (a + BitVec.ofNat 33 k)

theorem lowHalf_first {m : Mem 33} {a : BitVec 33} {n : BitVec 64} (hn : 32 < n.toNat)
    (old : BitVec 256) :
    LowHalf m a (old ++ maskData256 (m.beat a 32) (readFirstByteCount n)) := by
  intro k hk
  have hc : (readFirstByteCount n).toNat = 32 := by rw [readFirstByteCount_toNat]; omega
  rw [byteAt_extractLsb' _ 0 32 k hk, Nat.zero_add, byteAt_append_low _ _ (by omega),
    maskData256_byteAt _ _ hk, hc, if_pos hk, Mem.byteAt_beat m a hk]

/-- The masked second beat completes the low half to the answer. -/
theorem readBytes_two {m : Mem 33} {a : BitVec 33} {n : BitVec 64} (hn : 32 < n.toNat)
    (hn' : n.toNat ≤ 64) {line : BitVec 512} (hlow : LowHalf m a line) :
    ReadBytes m a n.toNat
      (maskData256 (m.beat (a + addrIncr32) 32) (readSecondByteCount n) ++
        line.extractLsb' 0 256) := by
  intro k hk
  have hc : (readSecondByteCount n).toNat = n.toNat - 32 := by
    rw [readSecondByteCount_toNat n (Nat.le_of_lt hn)]
    omega
  by_cases h : k < 32
  · rw [byteAt_append_low _ _ (by omega), hlow k h, if_pos (by omega)]
  · obtain ⟨j, rfl⟩ := Nat.exists_eq_add_of_le (Nat.le_of_not_lt h)
    rw [byteAt_append_high (k := 32) _ _ rfl, maskData256_byteAt _ _ (by omega), hc,
      Mem.byteAt_beat _ _ (by omega)]
    by_cases hj : 32 + j < n.toNat
    · rw [if_pos (by omega), if_pos hj, BitVec.ofNat_add, ← BitVec.add_assoc]
      rfl
    · rw [if_neg (by omega), if_neg hj]

theorem beatTaken_none {s : Ctrl slotCount} {i : In} (h : (i.rvalid && s.rready) = false) :
    beatTaken s i = [] := if_neg (Bool.eq_false_iff.mp h)

theorem beatTaken_some {s : Ctrl slotCount} {i : In} (h : (i.rvalid && s.rready) = true) :
    beatTaken s i = [⟨i.rdata, i.rresp, i.rlast⟩] := if_pos h

theorem beat_good {i : In} (hr : i.rresp = 0) (hl : i.rlast = true) :
    (⟨i.rdata, i.rresp, i.rlast⟩ : Beat).error = none := by
  simp [Beat.error, hr, hl]

theorem beat_bad {i : In} {e : Err}
    (he : i.rresp ≠ 0 ∧ e = .axiRresp ∨ i.rresp = 0 ∧ i.rlast = false ∧ e = .rlast) :
    (⟨i.rdata, i.rresp, i.rlast⟩ : Beat).error = some e := by
  unfold Beat.error
  rcases he with ⟨h1, rfl⟩ | ⟨h1, h2, rfl⟩
  · rw [if_pos h1]
  · rw [if_neg (not_not.mpr h1), h2]
    rfl

/-! ## 2. Where a read stands -/

/-- Address and size of the command, as the read states use them. -/
def ReadRegs (h : Hist) (s : Ctrl slotCount) : Prop :=
  s.currentAddr = h.addr ∧ s.remainingBytes = cmdSize h.cmd

/-- **Where a read stands**, state by state: the addresses asked for, the beats taken, and the half
    or the whole line collected from them. -/
inductive ReadPhase (m : Mem 33) (h : Hist) (z : Sys slotCount) (beats : List Beat) : Prop where
  | addr0 (hs : z.ctrl.state = .readAddr0) (hk : ReadRegs h z.ctrl)
      (hp : z.ctrl.arvalid = true → z.ctrl.araddr = h.addr) (hr : h.reads = []) (hb : beats = [])
  | data0 (hs : z.ctrl.state = .readData0) (hk : ReadRegs h z.ctrl) (hp : z.ar = h.addr)
      (hr : h.reads = [h.addr]) (hb : beats = [])
  | addr1 (hs : z.ctrl.state = .readAddr1) (hk : ReadRegs h z.ctrl)
      (hn : 32 < (cmdSize h.cmd).toNat) (hl : LowHalf m h.addr z.ctrl.readResponse)
      (hp : z.ctrl.arvalid = true → z.ctrl.araddr = h.addr + addrIncr32) (hr : h.reads = [h.addr])
      (hb : ∀ b ∈ beats, b.error = none)
  | data1 (hs : z.ctrl.state = .readData1) (hk : ReadRegs h z.ctrl)
      (hn : 32 < (cmdSize h.cmd).toNat) (hl : LowHalf m h.addr z.ctrl.readResponse)
      (hp : z.ar = h.addr + addrIncr32) (hr : h.reads = [h.addr, h.addr + addrIncr32])
      (hb : ∀ b ∈ beats, b.error = none)
  | sent (hs : z.ctrl.state = .readSend ∨ z.ctrl.state = .idle)
      (hd : ReadBytes m h.addr (cmdSize h.cmd).toNat z.ctrl.mAxisTdata)
      (hr : h.reads = if (cmdSize h.cmd).toNat ≤ 32 then [h.addr]
        else [h.addr, h.addr + addrIncr32])
      (hb : ∀ b ∈ beats, b.error = none)
  | failed (e : Err) (hs : z.ctrl.state = .sendStatus ∨ z.ctrl.state = .idle)
      (hd : z.ctrl.mAxisTdata = e.code.setWidth 512) (hx : ∃ b ∈ beats, b.error = some e)
      (hb : ∀ b ∈ beats, ∀ e', b.error = some e' → e' = e)

/-- The read states, up to the answer. -/
def St.reads : St → Bool
  | .readAddr0 | .readData0 | .readAddr1 | .readData1 | .readSend | .sendStatus | .idle => true
  | _ => false

theorem ReadPhase.state {m : Mem 33} {h : Hist} {z : Sys slotCount} {beats : List Beat}
    (hp : ReadPhase m h z beats) : z.ctrl.state.reads = true := by
  cases hp with
  | addr0 hs | data0 hs | addr1 hs | data1 hs => rw [hs]; rfl
  | sent hs | failed _ hs => rcases hs with e | e <;> rw [e] <;> rfl

/-- Only the address states ask for a beat. -/
theorem clock_ar_hold {z : Sys slotCount} (hsg : Signals z.ctrl) (hs : z.ctrl.state.addresses = false)
    (h : Hist) (i : In) : (z.clock i).ar = z.ar ∧ (h.next z.ctrl i).reads = h.reads := by
  have hv : (z.ctrl.arvalid && i.arready) = false := by rw [hsg.arvalid hs]; rfl
  exact ⟨if_neg (Bool.eq_false_iff.mp hv), next_reads_hold hv⟩

section Step

variable {m : Mem 33} {h : Hist} {z : Sys slotCount} {i : In} {beats : List Beat}
  (hsg : Signals z.ctrl) (hrst : i.rst = false)
include hsg hrst

theorem readPhase_addr0 (hs : z.ctrl.state = .readAddr0) (hk : ReadRegs h z.ctrl)
    (hp : z.ctrl.arvalid = true → z.ctrl.araddr = h.addr) (hr : h.reads = []) (hb : beats = []) :
    ReadPhase m (h.next z.ctrl i) (z.clock i) (beats ++ beatTaken z.ctrl i) := by
  have hnone : beatTaken z.ctrl i = [] := beatTaken_none (by rw [hsg.rready, hs, Bool.and_comm]; rfl)
  rw [hnone, List.append_nil]
  obtain ⟨s', hs', hm⟩ := clock_move z hrst
  cases hm
  case holdAr addr ho he =>
    have hadr : addr = z.ctrl.currentAddr := by simp_all
    refine .addr0 (by rw [hs']; exact hs) (by rw [hs']; exact hk) (fun _ => ?_)
      ((next_reads_hold he).trans hr) hb
    rw [hs']
    exact hadr.trans hk.1
  case takeAr addr next ho he =>
    have hnext : next = .readData0 := by simp_all
    refine .data0 (by rw [hs']; exact hnext) (by rw [hs']; exact hk) ?_ ?_ hb
    · show (if _ then _ else _) = _
      rw [if_pos he]
      exact hp (Bool.and_eq_true_iff.mp he).1
    · rw [next_reads_take he, hr, hp (Bool.and_eq_true_iff.mp he).1]
      rfl
  all_goals simp_all

theorem readPhase_data0 (hmem : z.mem = m) (hok : ReadsStored z i)
    (hs : z.ctrl.state = .readData0) (hk : ReadRegs h z.ctrl)
    (hp : z.ar = h.addr) (hr : h.reads = [h.addr]) (hb : beats = []) :
    ReadPhase m (h.next z.ctrl i) (z.clock i) (beats ++ beatTaken z.ctrl i) := by
  obtain ⟨har, hreads⟩ := clock_ar_hold hsg (by rw [hs]; rfl) h i
  have hr' : (h.next z.ctrl i).reads = [h.addr] := hreads.trans hr
  rw [hb, List.nil_append]
  have hdata : ∀ he : (i.rvalid && z.ctrl.rready) = true, i.rresp = 0 → i.rlast = true →
      i.rdata = m.beat h.addr 32 := by
    intro he h1 h2
    rw [hok he h1 h2, hp, hmem]
  obtain ⟨s', hs', hm⟩ := clock_move z hrst
  cases hm
  case holdR ho he =>
    exact .data0 (by rw [hs']; exact hs) (by rw [hs']; exact hk) (har.trans hp) hr'
      (beatTaken_none he)
  case errR ho he e hbad =>
    refine .failed e (by rw [hs']; exact Or.inl rfl) (by rw [hs']; rfl) ?_ ?_ <;>
      rw [beatTaken_some he]
    · exact ⟨_, List.mem_singleton_self _, beat_bad hbad⟩
    · intro b hmem e' he'
      rw [List.mem_singleton.mp hmem, beat_bad hbad] at he'
      exact (Option.some.inj he').symm
  case read0More ho he h1 h2 hgt =>
    have hn : 32 < (cmdSize h.cmd).toNat := by rw [← hk.2]; exact hgt
    refine .addr1 (by rw [hs']) (by rw [hs']; exact hk) hn ?_ ?_ hr' ?_
    · rw [hs']
      show LowHalf m h.addr (_ ++ maskData256 i.rdata (readFirstByteCount z.ctrl.remainingBytes))
      rw [hdata he h1 h2, hk.2]
      exact lowHalf_first hn _
    · intro hv
      rw [hs'] at hv
      have hv' : z.ctrl.arvalid = true := hv
      rw [hsg.arvalid (by rw [hs]; rfl)] at hv'
      cases hv'
    · rw [beatTaken_some he]
      intro b hmem
      rw [List.mem_singleton.mp hmem]
      exact beat_good h1 h2
  case read0Send ho he h1 h2 hle =>
    have hn : (cmdSize h.cmd).toNat ≤ 32 := by rw [← hk.2]; exact Nat.le_of_not_lt hle
    refine .sent (by rw [hs']; exact Or.inl rfl) ?_ ?_ ?_
    · rw [hs']
      show ReadBytes m h.addr _ (_ ++ maskData256 i.rdata (readFirstByteCount z.ctrl.remainingBytes))
      rw [hdata he h1 h2, hk.2]
      exact readBytes_one hn
    · rw [hr']
      exact (if_pos hn).symm
    · rw [beatTaken_some he]
      intro b hmem
      rw [List.mem_singleton.mp hmem]
      exact beat_good h1 h2
  all_goals simp_all

theorem readPhase_addr1 (hs : z.ctrl.state = .readAddr1) (hk : ReadRegs h z.ctrl)
    (hn : 32 < (cmdSize h.cmd).toNat) (hl : LowHalf m h.addr z.ctrl.readResponse)
    (hp : z.ctrl.arvalid = true → z.ctrl.araddr = h.addr + addrIncr32) (hr : h.reads = [h.addr])
    (hb : ∀ b ∈ beats, b.error = none) :
    ReadPhase m (h.next z.ctrl i) (z.clock i) (beats ++ beatTaken z.ctrl i) := by
  have hnone : beatTaken z.ctrl i = [] := beatTaken_none (by rw [hsg.rready, hs, Bool.and_comm]; rfl)
  rw [hnone, List.append_nil]
  obtain ⟨s', hs', hm⟩ := clock_move z hrst
  cases hm
  case holdAr addr ho he =>
    have hadr : addr = z.ctrl.currentAddr + addrIncr32 := by simp_all
    refine .addr1 (by rw [hs']; exact hs) (by rw [hs']; exact hk) hn (by rw [hs']; exact hl)
      (fun _ => ?_) ((next_reads_hold he).trans hr) hb
    rw [hs']
    show addr = h.addr + addrIncr32
    rw [hadr, hk.1]
  case takeAr addr next ho he =>
    have hnext : next = .readData1 := by simp_all
    have hadr := hp (Bool.and_eq_true_iff.mp he).1
    refine .data1 (by rw [hs']; exact hnext) (by rw [hs']; exact hk) hn (by rw [hs']; exact hl)
      ?_ ?_ hb
    · show (if _ then _ else _) = _
      rw [if_pos he]
      exact hadr
    · rw [next_reads_take he, hr, hadr]
      rfl
  all_goals simp_all

theorem readPhase_data1 (hmem : z.mem = m) (hok : ReadsStored z i)
    (hs : z.ctrl.state = .readData1) (hk : ReadRegs h z.ctrl)
    (hn : 32 < (cmdSize h.cmd).toNat) (hn' : (cmdSize h.cmd).toNat ≤ 64)
    (hl : LowHalf m h.addr z.ctrl.readResponse)
    (hp : z.ar = h.addr + addrIncr32) (hr : h.reads = [h.addr, h.addr + addrIncr32])
    (hb : ∀ b ∈ beats, b.error = none) :
    ReadPhase m (h.next z.ctrl i) (z.clock i) (beats ++ beatTaken z.ctrl i) := by
  obtain ⟨har, hreads⟩ := clock_ar_hold hsg (by rw [hs]; rfl) h i
  have hr' : (h.next z.ctrl i).reads = [h.addr, h.addr + addrIncr32] := hreads.trans hr
  obtain ⟨s', hs', hm⟩ := clock_move z hrst
  cases hm
  case holdR ho he =>
    rw [beatTaken_none he, List.append_nil]
    exact .data1 (by rw [hs']; exact hs) (by rw [hs']; exact hk) hn (by rw [hs']; exact hl)
      (har.trans hp) hr' hb
  case errR ho he e hbad =>
    refine .failed e (by rw [hs']; exact Or.inl rfl) (by rw [hs']; rfl) ?_ ?_ <;>
      rw [beatTaken_some he]
    · exact ⟨_, List.mem_append_right _ (List.mem_singleton_self _), beat_bad hbad⟩
    · intro b hmem e' he'
      rcases List.mem_append.mp hmem with h1 | h1
      · rw [hb b h1] at he'; cases he'
      · rw [List.mem_singleton.mp h1, beat_bad hbad] at he'
        exact (Option.some.inj he').symm
  case read1Send ho he h1 h2 =>
    refine .sent (by rw [hs']; exact Or.inl rfl) ?_ ?_ ?_
    · rw [hs']
      show ReadBytes m h.addr _ (maskData256 i.rdata (readSecondByteCount z.ctrl.remainingBytes) ++
        z.ctrl.readResponse.extractLsb' 0 256)
      rw [hok he h1 h2, hp, hmem, hk.2]
      exact readBytes_two hn hn' hl
    · rw [hr']
      exact (if_neg (Nat.not_le_of_lt hn)).symm
    · rw [beatTaken_some he]
      intro b hmem
      rcases List.mem_append.mp hmem with h3 | h3
      · exact hb b h3
      · rw [List.mem_singleton.mp h3]
        exact beat_good h1 h2
  all_goals simp_all

theorem readPhase_sent (ha : accepts z.ctrl i = false)
    (hs : z.ctrl.state = .readSend ∨ z.ctrl.state = .idle)
    (hd : ReadBytes m h.addr (cmdSize h.cmd).toNat z.ctrl.mAxisTdata)
    (hr : h.reads = if (cmdSize h.cmd).toNat ≤ 32 then [h.addr] else [h.addr, h.addr + addrIncr32])
    (hb : ∀ b ∈ beats, b.error = none) :
    ReadPhase m (h.next z.ctrl i) (z.clock i) (beats ++ beatTaken z.ctrl i) := by
  have hnone : beatTaken z.ctrl i = [] :=
    beatTaken_none (by rw [hsg.rready, Bool.and_comm]; rcases hs with e | e <;> rw [e] <;> rfl)
  have hadr : z.ctrl.state.addresses = false := by rcases hs with e | e <;> rw [e] <;> rfl
  obtain ⟨s', hs', hm⟩ := clock_move z hrst
  obtain ⟨hst, hdata⟩ := move_answered hm ha rfl hs
  rw [hnone, List.append_nil]
  refine .sent (by rw [hs']; exact hst) ?_ ((clock_ar_hold hsg hadr h i).2.trans hr) hb
  rw [hs', hdata]
  exact hd

theorem readPhase_failed (ha : accepts z.ctrl i = false) {e : Err}
    (hs : z.ctrl.state = .sendStatus ∨ z.ctrl.state = .idle)
    (hd : z.ctrl.mAxisTdata = e.code.setWidth 512) (hx : ∃ b ∈ beats, b.error = some e)
    (hb : ∀ b ∈ beats, ∀ e', b.error = some e' → e' = e) :
    ReadPhase m (h.next z.ctrl i) (z.clock i) (beats ++ beatTaken z.ctrl i) := by
  have hnone : beatTaken z.ctrl i = [] :=
    beatTaken_none (by rw [hsg.rready, Bool.and_comm]; rcases hs with e | e <;> rw [e] <;> rfl)
  obtain ⟨s', hs', hm⟩ := clock_move z hrst
  obtain ⟨hst, hdata⟩ := move_answered hm ha rfl hs
  rw [hnone, List.append_nil]
  exact .failed e (by rw [hs']; exact hst) (by rw [hs', hdata]; exact hd) hx hb

end Step

/-! ## 3. A read over a whole run -/

/-- The surroundings of a read: no reset and no further command, and a memory whose good beats are
    the stored ones. -/
def ReadingOk (z : Sys slotCount) (i : In) : Prop := Serving z i ∧ ReadsStored z i

instance (z : Sys slotCount) (i : In) : Decidable (ReadingOk z i) :=
  inferInstanceAs (Decidable (_ ∧ _))

/-- **A read accepted in `y`, until the next command.** -/
structure Reading (y : Sys slotCount) (t : BitVec 512) (z : Sys slotCount) (beats : List Beat) :
    Prop where
  signals : Signals z.ctrl
  frame : Untouched y z
  phase : ∃ h, z.hist = some h ∧ h.cmd = t ∧ ReadPhase y.mem h z beats

theorem reading_start {y : Sys slotCount} (hsg : Signals y.ctrl) {i : In} (hrst : i.rst = false)
    (ha : accepts y.ctrl i = true) (hx : Executes slotCount i.sAxisTdata opReadHbm) :
    Reading y i.sAxisTdata (y.clock i) [] := by
  have hidle := (accepts_iff.mp ha).1
  rcases clock_executes hrst ha hx with ⟨e, -⟩ | ⟨-, hc⟩ | ⟨e, -⟩
  · exact absurd e (by decide)
  · refine ⟨signals_clock hsg i, ?_, _, histNext_accept hrst ha, rfl, ?_⟩
    · exact untouched_clock (Untouched.refl y) hsg hrst (by rw [hidle]; decide)
        (by rw [hidle]; decide) fun _ => by rw [hc]; exact fun h => by cases h
    · refine .addr0 (by rw [hc]; rfl) (by rw [hc]; exact ⟨rfl, rfl⟩) (fun hv => ?_) rfl rfl
      rw [hc] at hv
      cases hv
  · exact absurd e (by decide)

theorem reading_edge {y z : Sys slotCount} {t : BitVec 512} {i : In} {beats : List Beat}
    (hx : Executes slotCount t opReadHbm) (h : Reading y t z beats) (hi : ReadingOk z i) :
    Reading y t (z.clock i) (beats ++ beatTaken z.ctrl i) := by
  obtain ⟨hsg, hfr, hist, hh, hcmd, hph⟩ := h
  obtain ⟨⟨hrst, ha⟩, hok⟩ := hi
  have hn64 : (cmdSize hist.cmd).toNat ≤ 64 := by
    rw [hcmd]
    exact of_decide_eq_true (hx.readSize rfl)
  have hnext : ReadPhase y.mem (hist.next z.ctrl i) (z.clock i) (beats ++ beatTaken z.ctrl i) := by
    cases hph with
    | addr0 hs hk hp hr hb => exact readPhase_addr0 hsg hrst hs hk hp hr hb
    | data0 hs hk hp hr hb => exact readPhase_data0 hsg hrst hfr.mem hok hs hk hp hr hb
    | addr1 hs hk hn hl hp hr hb => exact readPhase_addr1 hsg hrst hs hk hn hl hp hr hb
    | data1 hs hk hn hl hp hr hb =>
        exact readPhase_data1 hsg hrst hfr.mem hok hs hk hn hn64 hl hp hr hb
    | sent hs hd hr hb => exact readPhase_sent hsg hrst ha hs hd hr hb
    | failed e hs hd hx hb => exact readPhase_failed hsg hrst ha hs hd hx hb
  have hst := hph.state
  refine ⟨signals_clock hsg i, ?_, hist.next z.ctrl i, ?_, hcmd, hnext⟩
  · refine untouched_clock hfr hsg hrst ?_ ?_ fun _ e => ?_
    · intro e
      rw [e] at hst
      cases hst
    · intro e
      rw [e] at hst
      cases hst
    · have := hnext.state
      rw [e] at this
      cases this
  · show z.histNext i = _
    rw [histNext_run hrst ha, hh]
    rfl

theorem reading_run {y : Sys slotCount} (hsg : Signals y.ctrl) {i : In} (hrst : i.rst = false)
    (ha : accepts y.ctrl i = true) (hx : Executes slotCount i.sAxisTdata opReadHbm) {js : List In}
    (hm : Meets Sys.clock ReadingOk (y.clock i) js) :
    Reading y i.sAxisTdata (run Sys.clock (y.clock i) js)
      (log Sys.clock (fun z j => beatTaken z.ctrl j) (y.clock i) js) :=
  run_log (P := fun z l => Reading y i.sAxisTdata z l) (fun _ _ _ h hj => reading_edge hx h hj)
    (reading_start hsg hrst ha hx) js hm

/-! ## 4. A read that is not stalled is answered -/

/-- The memory keeps neither the address nor the awaited beat waiting. -/
def unstalled (s : Ctrl slotCount) (i : In) : Bool :=
  (!s.arvalid || i.arready) && (!s.rready || i.rvalid)

/-- How many unstalled edges a read still takes. -/
def readRank (s : Ctrl slotCount) : Nat :=
  match s.state with
  | .readAddr0 => if s.arvalid then 5 else 6
  | .readData0 => 4
  | .readAddr1 => if s.arvalid then 2 else 3
  | .readData1 => 1
  | _ => 0

/-- An edge of a read brings it closer to its answer, unless it stalls. -/
theorem readRank_move {s s' : Ctrl slotCount} {i : In} (hsg : Signals s) (hm : Move s i s')
    (ha : accepts s i = false) (hs : s.state.reads = true) :
    readRank s' ≤ readRank s - (if unstalled s i then 1 else 0) := by
  have hrr := hsg.rready
  cases hm
  case holdAr addr ho he =>
    rcases ho with ⟨e, -⟩ | ⟨e, -⟩ | ⟨e, -⟩
    · cases hv : s.arvalid <;> simp_all [readRank, unstalled, latch, St.fetches]
    · cases hv : s.arvalid <;> simp_all [readRank, unstalled, latch, St.fetches]
    · rw [e] at hs; cases hs
  case takeAr addr next ho he =>
    rcases ho with ⟨e, -, rfl⟩ | ⟨e, -, rfl⟩ | ⟨e, -, rfl⟩
    · simp_all [readRank, unstalled, St.fetches]
    · simp_all [readRank, unstalled, St.fetches]
    · rw [e] at hs; cases hs
  case holdR ho he =>
    rcases ho with e | e | e
    · simp_all [readRank, unstalled, latch, St.fetches]
    · simp_all [readRank, unstalled, latch, St.fetches]
    · rw [e] at hs; cases hs
  case errR => exact Nat.zero_le _
  case read0More ho he h1 h2 hn =>
    have hv : s.arvalid = false := hsg.arvalid (by rw [ho]; rfl)
    simp_all [readRank, unstalled, latch, St.fetches]
  case read0Send => exact Nat.zero_le _
  case read1Send => exact Nat.zero_le _
  case takeSend => exact Nat.zero_le _
  case holdSend ho he => rcases ho with e | e <;> simp [readRank, latch, e]
  all_goals simp_all [readRank, accepts, idleRegs, latch, St.reads]

theorem readRank_run {y : Sys slotCount} (hsg : Signals y.ctrl) {i : In} (hrst : i.rst = false)
    (ha : accepts y.ctrl i = true) (hx : Executes slotCount i.sAxisTdata opReadHbm) {js : List In}
    (hm : Meets Sys.clock ReadingOk (y.clock i) js) :
    readRank (run Sys.clock (y.clock i) js).ctrl ≤
      6 - (log Sys.clock (fun z j => if unstalled z.ctrl j then [j] else []) (y.clock i) js).length := by
  have hstart : readRank (y.clock i).ctrl ≤ 6 - ([] : List In).length := by
    unfold readRank
    split <;> (try split) <;> simp
  refine (run_log (P := fun z l => readRank z.ctrl ≤ 6 - l.length ∧
    ∃ beats, Reading y i.sAxisTdata z beats) (fun z j l h hj => ?_)
    ⟨hstart, [], reading_start hsg hrst ha hx⟩ js hm).1
  obtain ⟨hrank, beats, hrd⟩ := h
  obtain ⟨hist, -, -, hph⟩ := hrd.phase
  obtain ⟨s', hs', hmv⟩ := clock_move z hj.1.1
  have hdrop := readRank_move hrd.signals hmv hj.1.2 hph.state
  refine ⟨?_, _, reading_edge hx hrd hj⟩
  rw [hs', List.length_append]
  cases hu : unstalled z.ctrl j with
  | true =>
      rw [hu, if_pos rfl] at hdrop
      simp only [if_true, List.length_singleton]
      omega
  | false =>
      rw [hu, if_neg Bool.false_ne_true] at hdrop
      simp only [Bool.false_eq_true, if_false, List.length_nil]
      omega

/-- At rank zero the answer is offered, or the controller is idle again. -/
theorem answered_of_rank {y z : Sys slotCount} {t : BitVec 512} {beats : List Beat}
    (h : Reading y t z beats) (hr : readRank z.ctrl = 0) :
    z.ctrl.mAxisTvalid = true ∨ z.ctrl.state = .idle := by
  obtain ⟨hist, -, -, hph⟩ := h.phase
  rw [h.signals.mAxisTvalid]
  unfold readRank at hr
  cases hph with
  | addr0 hs => cases hv : z.ctrl.arvalid <;> simp [hs, hv] at hr
  | data0 hs => rw [hs] at hr; cases hr
  | addr1 hs => cases hv : z.ctrl.arvalid <;> simp [hs, hv] at hr
  | data1 hs => rw [hs] at hr; cases hr
  | sent hs | failed _ hs =>
      rcases hs with e | e
      · exact Or.inl (by rw [e]; rfl)
      · exact Or.inr e

/-! ## 5. A write that is answered ERR_OK -/

/-- The write was answered ERR_AXI_BRESP. -/
def WriteFailed (s : Ctrl slotCount) : Prop :=
  (s.state = .sendStatus ∨ s.state = .idle) ∧ s.mAxisTdata = Err.axiBresp.code.setWidth 512

/-- Whatever the memory answers: the write stands in one of its phases, or it has failed. -/
theorem writePhase_or_failed {mem : Mem 33} {y : Sys slotCount}
    (hr : Reachable Sys.clock AnyInput (Sys.init slotCount mem) y) {h : Hist} (hh : y.hist = some h)
    (hx : Executes slotCount h.cmd opWriteHbm) : WritePhase h y ∨ WriteFailed y.ctrl := by
  refine hist_invariant
    (P := fun h y => Executes slotCount h.cmd opWriteHbm → WritePhase h y ∨ WriteFailed y.ctrl)
    signals_reset (fun _ e => by cases e) ?_ ?_ hr hh hx
  · exact fun _ _ hsg hrst ha hx => Or.inl (writePhase_accept hsg hrst ha hx)
  · intro y i h hsg _ hrst ha ih hx
    obtain ⟨s', hs', hm⟩ := clock_move y hrst
    rcases ih hx with hph | ⟨hs, hd⟩
    · cases hph with
      | wait hs hm ha hr hw => exact Or.inl (writePhase_wait hsg hrst hs hm ha hr hw)
      | addr q hs hl hw hp => exact Or.inl (writePhase_addr hsg hrst hs hl hw hp)
      | data q hs hl hw hp hd hb => exact Or.inl (writePhase_data hsg hrst hs hl hw hp hd hb)
      | resp q hs hl hw =>
          by_cases hok : WritesOkay y i
          · exact Or.inl (writePhase_resp hsg hrst hok hs hl hw)
          · -- the one exit of a write that leaves its phases
            obtain ⟨hv, hb⟩ := Classical.not_imp.mp hok
            refine Or.inr ?_
            rw [hs']
            cases hm
            case errB => exact ⟨Or.inl rfl, rfl⟩
            all_goals simp_all
      | done hs hw hn hans => exact Or.inl (writePhase_done hsg hrst ha hs hw hn hans)
    · obtain ⟨hst, hdata⟩ := move_answered hm ha rfl hs
      exact Or.inr (by rw [hs']; exact ⟨hst, hdata.trans hd⟩)

/-- **A write that is answered ERR_OK has stored its payload.** -/
theorem write_answered_ok {mem : Mem 33} {y : Sys slotCount}
    (hr : Reachable Sys.clock AnyInput (Sys.init slotCount mem) y) {h : Hist} (hh : y.hist = some h)
    (hx : Executes slotCount h.cmd opWriteHbm) (hok : y.ctrl.answers .ok) :
    Written h y (cmdSize h.cmd).toNat := by
  have hsends := (signals_reachable hr).mAxisTvalid.symm.trans hok.1
  rcases writePhase_or_failed hr hh hx with hph | ⟨-, hd⟩
  · cases hph with
    | wait e | addr _ e | data _ e | resp _ e => rw [e] at hsends; cases hsends
    | done _ hw => exact hw
  · exact absurd (Err.line_injective (hok.2.symm.trans hd)) (by decide)

/-- No beat is written at the edge. -/
def NoWrite (y : Sys slotCount) (i : In) : Prop := (y.ctrl.wvalid && i.wready) = false

instance (y : Sys slotCount) (i : In) : Decidable (NoWrite y i) :=
  inferInstanceAs (Decidable (_ = _))

theorem mem_of_noWrite {w y : Sys slotCount} (h : Reachable Sys.clock NoWrite w y) : y.mem = w.mem :=
  h.invariant (P := fun y => y.mem = w.mem) rfl fun y i ih hi => by
    show y.memNext i = w.mem
    rw [Sys.memNext, show (y.ctrl.wvalid && i.wready) = false from hi]
    exact ih

/-! ## 6. The answer of a read -/

/-- **`READ_HBM` returns exactly the stored bytes.** For a read of `n` bytes at `a` accepted in any
    reachable state `y`, at the end `z` of any run up to the next command, over a memory whose good
    beats are the stored ones: memory, slots and reconfiguration registers are as in `y`; at most
    one line has left, and one is offered or has left after six edges that do not stall the read;
    such a line holds, if every beat was OKAY with RLAST, byte `a + k` of memory for `k < n` and
    zeros behind them, for which one beat was read if `n ≤ 32` and two otherwise, and it is the
    status of the failed beat if one failed. After a write `h` answered ERR_OK with no write since,
    the bytes read from its range are its payload. -/
theorem read_hbm_exact {mem : Mem 33} {y : Sys slotCount}
    (hr : Reachable Sys.clock AnyInput (Sys.init slotCount mem) y) {i : In} (hrst : i.rst = false)
    (ha : accepts y.ctrl i = true) (hx : Executes slotCount i.sAxisTdata opReadHbm) {js : List In}
    (hm : Meets Sys.clock ReadingOk (y.clock i) js) {z : Sys slotCount} {a : BitVec 33} {n : Nat}
    {beats : List Beat} {taken : List Resp} (hz : z = run Sys.clock (y.clock i) js)
    (haddr : a = (cmdAddr i.sAxisTdata).setWidth 33) (hn : n = (cmdSize i.sAxisTdata).toNat)
    (hbeats : beats = log Sys.clock (fun z j => beatTaken z.ctrl j) (y.clock i) js)
    (htaken : taken = log Sys.clock (fun z j => responseTaken z.ctrl j) (y.clock i) js) :
    Untouched y z ∧ taken.length ≤ 1 ∧
    (6 ≤ (log Sys.clock (fun z j => if unstalled z.ctrl j then [j] else []) (y.clock i) js).length →
      z.ctrl.mAxisTvalid = true ∨ taken ≠ []) ∧
    ∀ r, r ∈ taken ∨ z.ctrl.mAxisTvalid = true ∧ r = z.ctrl.response →
      ((∀ b ∈ beats, b.error = none) →
        r = .line r.tdata ∧ ReadBytes y.mem a n r.tdata ∧
        (∃ h, z.hist = some h ∧
          h.reads = if n ≤ 32 then [a] else [a, a + addrIncr32]) ∧
        ∀ (w : Sys slotCount) (h : Hist), Reachable Sys.clock AnyInput (Sys.init slotCount mem) w →
          w.hist = some h → Executes slotCount h.cmd opWriteHbm → w.ctrl.answers .ok →
          Reachable Sys.clock NoWrite w y →
          ∀ k < n, ∀ j < (cmdSize h.cmd).toNat, a + BitVec.ofNat 33 k = h.addr + BitVec.ofNat 33 j →
            (∀ j', j < j' → j' < (cmdSize h.cmd).toNat →
              h.addr + BitVec.ofNat 33 j' ≠ h.addr + BitVec.ofNat 33 j) →
            byteAt r.tdata k = payload h.lines j) ∧
      ∀ b ∈ beats, ∀ e, b.error = some e → r = .status e := by
  have hsg := signals_reachable hr
  have hserved : Served z taken := by
    rw [hz, htaken]
    exact served_run hsg (framed_reachable hr) hrst ha (hm.mono fun _ _ h => h.1)
  have hread : Reading y i.sAxisTdata z beats := by
    rw [hz, hbeats]
    exact reading_run hsg hrst ha hx hm
  obtain ⟨hist, hh, hcmd, hph⟩ := hread.phase
  have ha' : hist.addr = a := by rw [haddr, Hist.addr, hcmd]
  have hn' : (cmdSize hist.cmd).toNat = n := by rw [hn, hcmd]
  have hn64 : n ≤ 64 := by
    rw [hn]
    exact of_decide_eq_true (hx.readSize rfl)
  refine ⟨hread.frame, ?_, fun h6 => ?_, fun r hr' => ?_⟩
  · rcases hserved.phase with ⟨-, e⟩ | ⟨-, e⟩ <;> simp [e]
  · have hrank := readRank_run hsg hrst ha hx hm
    rw [← hz] at hrank
    refine (answered_of_rank hread (by omega)).imp_right fun hidle => ?_
    rcases hserved.phase with ⟨hni, -⟩ | ⟨-, e⟩
    · exact absurd hidle hni
    · simp [e]
  -- the line that left, or is offered, is the one in the data register
  have hline : r = .line z.ctrl.mAxisTdata := by
    rcases hr' with hmem | ⟨hv, rfl⟩
    · rcases hserved.phase with ⟨-, e⟩ | ⟨-, e⟩
      · rw [e] at hmem; cases hmem
      · rw [e] at hmem; exact List.mem_singleton.mp hmem
    · exact hserved.framed (by rw [← hserved.signals.mAxisTvalid]; exact hv)
  have hdata : r.tdata = z.ctrl.mAxisTdata := by rw [hline]; rfl
  have hearly : ¬ (z.ctrl.state.sends = false ∧ z.ctrl.state ≠ .idle) := by
    rintro ⟨h1, h2⟩
    rcases hr' with hmem | ⟨hv, -⟩
    · rcases hserved.phase with ⟨-, e⟩ | ⟨e, -⟩
      · rw [e] at hmem; cases hmem
      · exact h2 e
    · rw [hserved.signals.mAxisTvalid, h1] at hv
      cases hv
  cases hph with
  | addr0 hs | data0 hs | addr1 hs | data1 hs =>
      exact absurd ⟨by rw [hs]; rfl, by rw [hs]; decide⟩ hearly
  | sent hs hd hrd hb =>
      rw [ha', hn'] at hd hrd
      refine ⟨fun _ => ⟨by rw [hdata]; exact hline, by rw [hdata]; exact hd, ⟨hist, hh, hrd⟩, ?_⟩, ?_⟩
      · intro w h hw hwh hwx hwok hno k hk j hj hkj hlast
        have hstored := write_answered_ok hw hwh hwx hwok
        rw [hdata, hd k (by omega), if_pos hk, hkj, mem_of_noWrite hno, show w.mem = _ from hstored]
        exact Mem.store_at _ _ _ _ j hj hlast
      · intro b hmem e he
        rw [hb b hmem] at he
        cases he
  | failed e hs hd hbad hb =>
      refine ⟨fun hall => ?_, fun b hmem e' he' => ?_⟩
      · obtain ⟨b, hmem, he⟩ := hbad
        rw [hall b hmem] at he
        cases he
      · rw [hb b hmem e' he', hline, hd]
        rfl

/-- The edges of one beat: the address presented and taken, the stored beat taken. -/
def readBeatEdges (m : Mem 33) (a : BitVec 33) : List In :=
  [In.low, { In.low with arready := true },
    { In.low with rvalid := true, rlast := true, rdata := m.beat a 32 }]

/-- 33 bytes written at `0x2000`, the answer offered. -/
def markedSys : Sys 2 :=
  run Sys.clock (Sys.offered countingMem (commandLine opWriteHbm 0 0x2000 33))
    ([In.low, lineEdge markedLine] ++ writeBeatEdges ++ writeBeatEdges)

/-- The answer taken, the controller ready for the read. -/
def rereadSys : Sys 2 := run Sys.clock markedSys [{ In.low with mAxisTready := true }, In.low]

def rereadCommand : BitVec 512 := commandLine opReadHbm 0 0x2000 33

def rereadEdges : List In :=
  readBeatEdges markedSys.mem 0x2000 ++ readBeatEdges markedSys.mem 0x2020

def rereadResponse : Resp :=
  (run Sys.clock (rereadSys.clock (lineEdge rereadCommand)) rereadEdges).ctrl.response

/-- Byte 32 of the line read back is byte 32 of the line written, behind it is nothing. -/
theorem read_hbm_exact_marked :
    byteAt rereadResponse.tdata 32 = 0xab ∧ byteAt rereadResponse.tdata 33 = 0 := by
  have hw : Reachable Sys.clock AnyInput (Sys.init 2 countingMem) markedSys :=
    Reachable.of_run ([In.low, lineEdge (commandLine opWriteHbm 0 0x2000 33)] ++
      ([In.low, lineEdge markedLine] ++ writeBeatEdges ++ writeBeatEdges))
      (Meets.of_forall (fun _ _ => trivial) _ _)
  have hno : Reachable Sys.clock NoWrite markedSys rereadSys :=
    Reachable.of_run [{ In.low with mAxisTready := true }, In.low] (by decide +kernel)
  have hr : Reachable Sys.clock AnyInput (Sys.init 2 countingMem) rereadSys :=
    hw.trans (hno.mono fun _ _ _ => trivial)
  have hm : Meets Sys.clock ReadingOk (rereadSys.clock (lineEdge rereadCommand)) rereadEdges := by
    decide +kernel
  obtain ⟨-, -, hans, hall⟩ := read_hbm_exact hr (i := lineEdge rereadCommand) rfl
    (by decide +kernel) (by constructor <;> decide +kernel) hm rfl rfl rfl rfl rfl
  have hv := (hans (by decide +kernel)).resolve_right (by decide +kernel)
  obtain ⟨-, hbytes, -, hwritten⟩ := (hall rereadResponse (Or.inr ⟨hv, rfl⟩)).1
    (by decide +kernel)
  have hh := hist_current (y := markedSys) (by decide +kernel)
  have hmark : payload markedSys.current.lines 32 = 0xab := by decide +kernel
  refine ⟨(hwritten _ _ hw hh (by constructor <;> decide +kernel) (by decide +kernel) hno 32
    (by decide +kernel) 32 (by decide +kernel) (by decide +kernel) ?_).trans hmark,
    (hbytes 33 (by decide)).trans (if_neg (by decide +kernel))⟩
  have hsize : (cmdSize markedSys.current.cmd).toNat = 33 := by decide +kernel
  intro j h1 h2
  omega

end Frac.Reconf
