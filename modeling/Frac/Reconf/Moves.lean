/-
  File:      Frac/Reconf/Moves.lean
  Subject:   What one clock edge of the controller can do, said once: the moves of the state
             machine with their guards and successors. Every invariant of the controller is a
             case analysis over `Move`, none of them unfolds the edge again.

  * `Executes slotCount t op` -- the command line `t` passes every check of `STATE_IDLE` for `op`;
  * `Move s i s'` -- the moves; `move_edge` -- every edge with `rst` low is one of them.
-/
import Frac.Reconf.Controller

namespace Frac.Reconf

variable {slotCount : Nat}

/-! ## 1. Commands -/

/-- **A command line that starts operation `op`**: no check of `STATE_IDLE` fails on it. -/
structure Executes (slotCount : Nat) (t : BitVec 512) (op : BitVec 8) : Prop where
  opcode : cmdOpcode t = op
  known : op = opWriteHbm ∨ op = opReadHbm ∨ op = opReconfIcap
  addrFits : cmdAddrFits t = true
  addrAligned : cmdAddrAligned t = true
  sizeNonzero : cmdSizeNonzero t = true
  readSize : op = opReadHbm → cmdReadSizeOk t = true
  reconfSize : op = opReconfIcap → cmdReconfSizeOk t = true
  slotOk : op = opReconfIcap → cmdSlotOk slotCount t = true

/-- What an accepted command line leads to: an error status, the query status, or one of the
    three operations -- the operation exactly when the line passes its checks. -/
theorem acceptCommand_cases (s : Ctrl slotCount) (i : In) (r : Ctrl slotCount) :
    (∃ e, e ≠ .ok ∧ acceptCommand s i r = startStatus r e ∧
      ∀ op, ¬ Executes slotCount i.sAxisTdata op) ∨
    (cmdOpcode i.sAxisTdata = opQueryStatus ∧ acceptCommand s i r = startQueryStatus s i r) ∨
    (Executes slotCount i.sAxisTdata opWriteHbm ∧
      acceptCommand s i r = startWrite r i.sAxisTdata) ∨
    (Executes slotCount i.sAxisTdata opReadHbm ∧ acceptCommand s i r = startRead r i.sAxisTdata) ∨
    (Executes slotCount i.sAxisTdata opReconfIcap ∧
      acceptCommand s i r = startReconf r i.sAxisTdata) := by
  generalize ht : i.sAxisTdata = t
  unfold acceptCommand
  rw [ht]
  simp only
  -- the chain is walked in source order; a failing check refutes `Executes` by its own field
  by_cases h1 : cmdOpcode t ≠ opWriteHbm ∧ cmdOpcode t ≠ opReadHbm ∧
      cmdOpcode t ≠ opReconfIcap ∧ cmdOpcode t ≠ opQueryStatus
  · rw [if_pos h1]
    refine Or.inl ⟨.opcode, by decide, rfl, fun op h => ?_⟩
    obtain ⟨h1, h2, h3, _⟩ := h1
    rcases h.known with e | e | e <;> simp_all [h.opcode]
  rw [if_neg h1]
  by_cases h2 : cmdOpcode t = opQueryStatus
  · rw [if_pos h2]
    exact Or.inr (Or.inl ⟨h2, rfl⟩)
  rw [if_neg h2]
  by_cases h3 : cmdAddrFits t
  swap
  · rw [if_pos (by simpa using h3)]
    exact Or.inl ⟨.addr, by decide, rfl, fun op h => h3 h.addrFits⟩
  rw [if_neg (by simpa using h3)]
  by_cases h4 : cmdAddrAligned t
  swap
  · rw [if_pos (by simpa using h4)]
    exact Or.inl ⟨.align, by decide, rfl, fun op h => h4 h.addrAligned⟩
  rw [if_neg (by simpa using h4)]
  by_cases h5 : cmdSizeNonzero t
  swap
  · rw [if_pos (by simpa using h5)]
    exact Or.inl ⟨.size, by decide, rfl, fun op h => h5 h.sizeNonzero⟩
  rw [if_neg (by simpa using h5)]
  by_cases h6 : cmdOpcode t = opReadHbm ∧ !cmdReadSizeOk t
  · rw [if_pos h6]
    refine Or.inl ⟨.size, by decide, rfl, fun op h => ?_⟩
    have := h.readSize (h.opcode.symm.trans h6.1)
    simp [this] at h6
  rw [if_neg h6]
  by_cases h7 : cmdOpcode t = opReconfIcap ∧ !cmdReconfSizeOk t
  · rw [if_pos h7]
    refine Or.inl ⟨.size, by decide, rfl, fun op h => ?_⟩
    have := h.reconfSize (h.opcode.symm.trans h7.1)
    simp [this] at h7
  rw [if_neg h7]
  by_cases h8 : cmdOpcode t = opReconfIcap ∧ !cmdSlotOk slotCount t
  · rw [if_pos h8]
    refine Or.inl ⟨.slot, by decide, rfl, fun op h => ?_⟩
    have := h.slotOk (h.opcode.symm.trans h8.1)
    simp [this] at h8
  rw [if_neg h8]
  have hex : ∀ op, cmdOpcode t = op → op = opWriteHbm ∨ op = opReadHbm ∨ op = opReconfIcap →
      Executes slotCount t op := fun op ho hk =>
    ⟨ho, hk, h3, h4, h5, fun e => by simpa [ho, e] using h6, fun e => by simpa [ho, e] using h7,
      fun e => by simpa [ho, e] using h8⟩
  by_cases h9 : cmdOpcode t = opWriteHbm
  · rw [if_pos h9]
    exact Or.inr (Or.inr (Or.inl ⟨hex _ h9 (Or.inl rfl), rfl⟩))
  rw [if_neg h9]
  by_cases h10 : cmdOpcode t = opReadHbm
  · rw [if_pos h10]
    exact Or.inr (Or.inr (Or.inr (Or.inl ⟨hex _ h10 (Or.inr (Or.inl rfl)), rfl⟩)))
  rw [if_neg h10]
  have h11 : cmdOpcode t = opReconfIcap := by
    by_contra h
    exact h1 ⟨h9, h10, h, h2⟩
  exact Or.inr (Or.inr (Or.inr (Or.inr ⟨hex _ h11 (Or.inr (Or.inr rfl)), rfl⟩)))

/-! ## 2. The moves -/

/-- **One edge with `rst` low**, by the branch it takes. The successor is written over
    `latch s i`, the registers after the statements that precede the `case`. -/
inductive Move (s : Ctrl slotCount) (i : In) : Ctrl slotCount → Prop where
  | idleHold (hs : s.state = .idle) (h : (i.sAxisTvalid && s.sAxisTready) = false) :
      Move s i (idleRegs (latch s i) true)
  | reject (hs : s.state = .idle) (h : (i.sAxisTvalid && s.sAxisTready) = true) (e : Err)
      (he : e ≠ .ok) (hn : ∀ op, ¬ Executes slotCount i.sAxisTdata op) :
      Move s i (startStatus (idleRegs (latch s i) false) e)
  | query (hs : s.state = .idle) (h : (i.sAxisTvalid && s.sAxisTready) = true)
      (ho : cmdOpcode i.sAxisTdata = opQueryStatus) :
      Move s i (startQueryStatus s i (idleRegs (latch s i) false))
  | startWrite (hs : s.state = .idle) (h : (i.sAxisTvalid && s.sAxisTready) = true)
      (hx : Executes slotCount i.sAxisTdata opWriteHbm) :
      Move s i (startWrite (idleRegs (latch s i) false) i.sAxisTdata)
  | startRead (hs : s.state = .idle) (h : (i.sAxisTvalid && s.sAxisTready) = true)
      (hx : Executes slotCount i.sAxisTdata opReadHbm) :
      Move s i (startRead (idleRegs (latch s i) false) i.sAxisTdata)
  | startReconf (hs : s.state = .idle) (h : (i.sAxisTvalid && s.sAxisTready) = true)
      (hx : Executes slotCount i.sAxisTdata opReconfIcap) :
      Move s i (startReconf (idleRegs (latch s i) false) i.sAxisTdata)
  | waitLine (hs : s.state = .writeWaitData) (h : (i.sAxisTvalid && s.sAxisTready) = false) :
      Move s i { latch s i with sAxisTready := true }
  | takeLine (hs : s.state = .writeWaitData) (h : (i.sAxisTvalid && s.sAxisTready) = true) :
      Move s i
        { latch s i with
          sAxisTready := false
          dataLine := i.sAxisTdata
          lineBytes := nextLineBytes s.remainingBytes
          halfSelect := false
          state := .writeAddr }
  | holdAw (hs : s.state = .writeAddr) (h : (s.awvalid && i.awready) = false) :
      Move s i
        { latch s i with
          awaddr := s.currentAddr + (if s.halfSelect then addrIncr32 else 0)
          awvalid := true }
  | takeAw (hs : s.state = .writeAddr) (h : (s.awvalid && i.awready) = true) :
      Move s i
        { latch s i with
          awaddr := s.currentAddr + (if s.halfSelect then addrIncr32 else 0)
          awvalid := false
          wdata := if s.halfSelect then s.dataLine.extractLsb' 256 256
            else s.dataLine.extractLsb' 0 256
          wstrb := strobeForBytes (writeBytesForHalf s.lineBytes s.halfSelect)
          wlast := true
          wvalid := true
          state := .writeData }
  | holdW (hs : s.state = .writeData) (h : (s.wvalid && i.wready) = false) : Move s i (latch s i)
  | takeW (hs : s.state = .writeData) (h : (s.wvalid && i.wready) = true) :
      Move s i { latch s i with wvalid := false, wlast := false, bready := true, state := .writeResp }
  | holdB (hs : s.state = .writeResp) (h : (i.bvalid && s.bready) = false) : Move s i (latch s i)
  | errB (hs : s.state = .writeResp) (h : (i.bvalid && s.bready) = true) (hb : i.bresp ≠ 0) :
      Move s i (startStatus { latch s i with bready := false } .axiBresp)
  | nextHalf (hs : s.state = .writeResp) (h : (i.bvalid && s.bready) = true) (hb : i.bresp = 0)
      (hh : s.halfSelect = false) (hl : s.lineBytes > 32) :
      Move s i { latch s i with bready := false, halfSelect := true, state := .writeAddr }
  | writeDone (hs : s.state = .writeResp) (h : (i.bvalid && s.bready) = true) (hb : i.bresp = 0)
      (hh : s.halfSelect = true ∨ s.lineBytes ≤ 32)
      (hr : s.remainingBytes ≤ s.lineBytes.setWidth 64) :
      Move s i
        (startStatus
          { latch s i with
            bready := false
            remainingBytes := 0
            currentAddr := s.currentAddr + s.lineBytes.setWidth 33 } .ok)
  | nextLine (hs : s.state = .writeResp) (h : (i.bvalid && s.bready) = true) (hb : i.bresp = 0)
      (hh : s.halfSelect = true ∨ s.lineBytes ≤ 32)
      (hr : ¬ s.remainingBytes ≤ s.lineBytes.setWidth 64) :
      Move s i
        { latch s i with
          bready := false
          remainingBytes := s.remainingBytes - s.lineBytes.setWidth 64
          currentAddr := s.currentAddr + s.lineBytes.setWidth 33
          state := .writeWaitData }
  | holdAr (addr : BitVec 33)
      (hs : s.state = .readAddr0 ∧ addr = s.currentAddr ∨
        s.state = .readAddr1 ∧ addr = s.currentAddr + addrIncr32 ∨
        s.state = .reconfAddr ∧ addr = s.currentAddr) (h : (s.arvalid && i.arready) = false) :
      Move s i { latch s i with araddr := addr, arvalid := true }
  | takeAr (addr : BitVec 33) (next : St)
      (hs : s.state = .readAddr0 ∧ addr = s.currentAddr ∧ next = .readData0 ∨
        s.state = .readAddr1 ∧ addr = s.currentAddr + addrIncr32 ∧ next = .readData1 ∨
        s.state = .reconfAddr ∧ addr = s.currentAddr ∧ next = .reconfData)
      (h : (s.arvalid && i.arready) = true) :
      Move s i { latch s i with araddr := addr, arvalid := false, rready := true, state := next }
  | holdR (hs : s.state = .readData0 ∨ s.state = .readData1 ∨ s.state = .reconfData)
      (h : (i.rvalid && s.rready) = false) : Move s i (latch s i)
  | errR (hs : s.state = .readData0 ∨ s.state = .readData1 ∨ s.state = .reconfData)
      (h : (i.rvalid && s.rready) = true) (e : Err)
      (he : i.rresp ≠ 0 ∧ e = .axiRresp ∨ i.rresp = 0 ∧ i.rlast = false ∧ e = .rlast) :
      Move s i (startStatus { latch s i with rready := false } e)
  | read0More (hs : s.state = .readData0) (h : (i.rvalid && s.rready) = true)
      (hr : i.rresp = 0) (hl : i.rlast = true) (hm : s.remainingBytes > 32) :
      Move s i
        { latch s i with
          rready := false
          readResponse := s.readResponse.extractLsb' 256 256 ++
            maskData256 i.rdata (readFirstByteCount s.remainingBytes)
          state := .readAddr1 }
  | read0Send (hs : s.state = .readData0) (h : (i.rvalid && s.rready) = true)
      (hr : i.rresp = 0) (hl : i.rlast = true) (hm : ¬ s.remainingBytes > 32) :
      Move s i
        (readSendLine
          { latch s i with
            rready := false
            readResponse := s.readResponse.extractLsb' 256 256 ++
              maskData256 i.rdata (readFirstByteCount s.remainingBytes) }
          ((0 : BitVec 256) ++ maskData256 i.rdata (readFirstByteCount s.remainingBytes)))
  | read1Send (hs : s.state = .readData1) (h : (i.rvalid && s.rready) = true)
      (hr : i.rresp = 0) (hl : i.rlast = true) :
      Move s i
        (readSendLine
          { latch s i with
            rready := false
            readResponse := maskData256 i.rdata (readSecondByteCount s.remainingBytes) ++
              s.readResponse.extractLsb' 0 256 }
          (maskData256 i.rdata (readSecondByteCount s.remainingBytes) ++
            s.readResponse.extractLsb' 0 256))
  | holdSend (hs : s.state = .readSend ∨ s.state = .sendStatus)
      (h : (s.mAxisTvalid && i.mAxisTready) = false) : Move s i (latch s i)
  | takeSend (hs : s.state = .readSend ∨ s.state = .sendStatus)
      (h : (s.mAxisTvalid && i.mAxisTready) = true) :
      Move s i { latch s i with mAxisTvalid := false, mAxisTlast := false, state := .idle }
  | takeBeat (hs : s.state = .reconfData) (h : (i.rvalid && s.rready) = true)
      (hr : i.rresp = 0) (hl : i.rlast = true) :
      Move s i
        { latch s i with
          rready := false
          readData := i.rdata
          icapWordIndex := 0
          icapTdata := i.rdata.extractLsb' 0 32
          icapTlast := s.icapWordsRemaining == 1
          icapTvalid := true
          state := .reconfStream }
  | holdWord (hs : s.state = .reconfStream) (h : (s.icapTvalid && i.icapTready) = false) :
      Move s i (latch s i)
  | lastWord (hs : s.state = .reconfStream) (h : (s.icapTvalid && i.icapTready) = true)
      (hw : s.icapWordsRemaining = 1) :
      Move s i
        { latch s i with
          icapWordsRemaining := 0
          icapTvalid := false
          icapTlast := false
          state := .reconfWaitDone }
  | beatEnd (hs : s.state = .reconfStream) (h : (s.icapTvalid && i.icapTready) = true)
      (hw : s.icapWordsRemaining ≠ 1) (hx : s.icapWordIndex = 7) :
      Move s i
        { latch s i with
          icapWordsRemaining := s.icapWordsRemaining - 1
          currentAddr := s.currentAddr + addrIncr32
          icapWordIndex := 0
          icapTvalid := false
          icapTlast := false
          state := .reconfAddr }
  | nextWord (hs : s.state = .reconfStream) (h : (s.icapTvalid && i.icapTready) = true)
      (hw : s.icapWordsRemaining ≠ 1) (hx : s.icapWordIndex ≠ 7) :
      Move s i
        { latch s i with
          icapWordsRemaining := s.icapWordsRemaining - 1
          icapWordIndex := s.icapWordIndex + 1
          icapTdata := selectIcapWord s.readData (s.icapWordIndex + 1)
          icapTlast := s.icapWordsRemaining == 2 }
  | waitDone (hs : s.state = .reconfWaitDone) (he : (i.icapPrErr || s.icapPrErrSeen) = false)
      (hd : (i.icapPrDone || s.icapPrDoneSeen) = false) : Move s i (latch s i)
  | finish (hs : s.state = .reconfWaitDone) (e : Err)
      (he : (i.icapPrErr || s.icapPrErrSeen) = true ∧ e = .icap ∨
        (i.icapPrErr || s.icapPrErrSeen) = false ∧
          (i.icapPrDone || s.icapPrDoneSeen) = true ∧ e = .ok) :
      Move s i (finishReconf s (latch s i) e)
  | undefined (hs : s.state = .other) : Move s i { latch s i with state := .idle }

theorem move_idle (s : Ctrl slotCount) (i : In) (hs : s.state = .idle) :
    Move s i (idleEdge s i (latch s i)) := by
  unfold idleEdge
  cases h : (i.sAxisTvalid && s.sAxisTready) with
  | false => exact .idleHold hs h
  | true =>
      simp only [if_true]
      rcases acceptCommand_cases s i (idleRegs (latch s i) false) with
        ⟨e, he, eq, hn⟩ | ⟨ho, eq⟩ | ⟨hx, eq⟩ | ⟨hx, eq⟩ | ⟨hx, eq⟩ <;> rw [eq]
      · exact .reject hs h e he hn
      · exact .query hs h ho
      · exact .startWrite hs h hx
      · exact .startRead hs h hx
      · exact .startReconf hs h hx

theorem move_writeResp (s : Ctrl slotCount) (i : In) (hs : s.state = .writeResp) :
    Move s i (writeRespEdge s i (latch s i)) := by
  unfold writeRespEdge
  cases h : (i.bvalid && s.bready) with
  | false => exact .holdB hs h
  | true =>
      simp only [if_true]
      by_cases hb : i.bresp ≠ 0
      · rw [if_pos hb]
        exact .errB hs h hb
      rw [if_neg hb]
      have hb' : i.bresp = 0 := not_not.mp hb
      by_cases hh : (!s.halfSelect && decide (s.lineBytes > 32)) = true
      · rw [if_pos hh]
        simp only [Bool.and_eq_true, Bool.not_eq_true', decide_eq_true_eq] at hh
        exact .nextHalf hs h hb' hh.1 hh.2
      rw [if_neg hh]
      have hh' : s.halfSelect = true ∨ s.lineBytes ≤ 32 := by
        by_cases hsel : s.halfSelect = true
        · exact Or.inl hsel
        · refine Or.inr ?_
          simp only [Bool.not_eq_true] at hsel
          simpa [hsel] using hh
      by_cases hr : s.remainingBytes ≤ s.lineBytes.setWidth 64
      · rw [if_pos hr]
        exact .writeDone hs h hb' hh' hr
      · rw [if_neg hr]
        exact .nextLine hs h hb' hh' hr

/-- The three read-data states: a held beat, an answered error, or the good branch. -/
theorem move_readData {s : Ctrl slotCount} {i : In}
    (hs : s.state = .readData0 ∨ s.state = .readData1 ∨ s.state = .reconfData)
    (good : Ctrl slotCount → Ctrl slotCount)
    (hg : (i.rvalid && s.rready) = true → i.rresp = 0 → i.rlast = true →
      Move s i (good { latch s i with rready := false })) :
    Move s i (readDataEdge good s i (latch s i)) := by
  unfold readDataEdge
  cases h : (i.rvalid && s.rready) with
  | false => exact .holdR hs h
  | true =>
      simp only [if_true]
      by_cases hr : i.rresp ≠ 0
      · rw [if_pos hr]
        exact .errR hs h .axiRresp (Or.inl ⟨hr, rfl⟩)
      rw [if_neg hr]
      have hr' : i.rresp = 0 := not_not.mp hr
      cases hl : i.rlast with
      | false => exact .errR hs h .rlast (Or.inr ⟨hr', hl, rfl⟩)
      | true => exact hg h hr' hl

theorem move_reconfStream (s : Ctrl slotCount) (i : In) (hs : s.state = .reconfStream) :
    Move s i (reconfStreamEdge s i (latch s i)) := by
  unfold reconfStreamEdge
  cases h : (s.icapTvalid && i.icapTready) with
  | false => exact .holdWord hs h
  | true =>
      simp only [if_true]
      by_cases hw : s.icapWordsRemaining = 1
      · rw [if_pos hw]
        exact .lastWord hs h hw
      · rw [if_neg hw]
        by_cases hx : s.icapWordIndex = 7
        · rw [if_pos hx]
          exact .beatEnd hs h hw hx
        · rw [if_neg hx]
          exact .nextWord hs h hw hx

theorem move_reconfWaitDone (s : Ctrl slotCount) (i : In) (hs : s.state = .reconfWaitDone) :
    Move s i (reconfWaitDoneEdge s i (latch s i)) := by
  unfold reconfWaitDoneEdge
  cases he : (i.icapPrErr || s.icapPrErrSeen) with
  | true => exact .finish hs .icap (Or.inl ⟨he, rfl⟩)
  | false =>
      cases hd : (i.icapPrDone || s.icapPrDoneSeen) with
      | true => exact .finish hs .ok (Or.inr ⟨he, hd, rfl⟩)
      | false => exact .waitDone hs he hd

/-- **Every edge with `rst` low is one of the moves.** -/
theorem move_edge (s : Ctrl slotCount) (i : In) : Move s i (s.edge i) := by
  unfold Ctrl.edge
  cases hs : s.state with
  | idle => exact move_idle s i hs
  | writeWaitData =>
      simp only [writeWaitDataEdge]
      cases h : (i.sAxisTvalid && s.sAxisTready) with
      | false => exact .waitLine hs h
      | true => exact .takeLine hs h
  | writeAddr =>
      simp only [writeAddrEdge]
      cases h : (s.awvalid && i.awready) with
      | false => exact .holdAw hs h
      | true => exact .takeAw hs h
  | writeData =>
      simp only [writeDataEdge]
      cases h : (s.wvalid && i.wready) with
      | false => exact .holdW hs h
      | true => exact .takeW hs h
  | writeResp => exact move_writeResp s i hs
  | readAddr0 =>
      simp only [readAddr0Edge, readAddrEdge]
      cases h : (s.arvalid && i.arready) with
      | false => exact .holdAr _ (Or.inl ⟨hs, rfl⟩) h
      | true => exact .takeAr _ _ (Or.inl ⟨hs, rfl, rfl⟩) h
  | readAddr1 =>
      simp only [readAddr1Edge, readAddrEdge]
      cases h : (s.arvalid && i.arready) with
      | false => exact .holdAr _ (Or.inr (Or.inl ⟨hs, rfl⟩)) h
      | true => exact .takeAr _ _ (Or.inr (Or.inl ⟨hs, rfl, rfl⟩)) h
  | reconfAddr =>
      simp only [reconfAddrEdge, readAddrEdge]
      cases h : (s.arvalid && i.arready) with
      | false => exact .holdAr _ (Or.inr (Or.inr ⟨hs, rfl⟩)) h
      | true => exact .takeAr _ _ (Or.inr (Or.inr ⟨hs, rfl, rfl⟩)) h
  | readData0 =>
      refine move_readData (Or.inl hs) _ fun h hr hl => ?_
      by_cases hm : s.remainingBytes > 32
      · simp only [if_pos hm]
        exact .read0More hs h hr hl hm
      · simp only [if_neg hm]
        exact .read0Send hs h hr hl hm
  | readData1 =>
      exact move_readData (Or.inr (Or.inl hs)) _ fun h hr hl => .read1Send hs h hr hl
  | reconfData =>
      exact move_readData (Or.inr (Or.inr hs)) _ fun h hr hl => .takeBeat hs h hr hl
  | readSend =>
      simp only [sendEdge]
      cases h : (s.mAxisTvalid && i.mAxisTready) with
      | false => exact .holdSend (Or.inl hs) h
      | true => exact .takeSend (Or.inl hs) h
  | sendStatus =>
      simp only [sendEdge]
      cases h : (s.mAxisTvalid && i.mAxisTready) with
      | false => exact .holdSend (Or.inr hs) h
      | true => exact .takeSend (Or.inr hs) h
  | reconfStream => exact move_reconfStream s i hs
  | reconfWaitDone => exact move_reconfWaitDone s i hs
  | other => exact .undefined hs

end Frac.Reconf
