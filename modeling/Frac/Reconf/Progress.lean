/-
  File:      Frac/Reconf/Progress.lean
  Subject:   Where an accepted command stands, whatever its surroundings do: how many payload lines
             it has taken, and that it takes no more than it needs.

  * `payloadLines` -- the payload lines a command needs;
  * `Busy` -- a command that is not yet answered to the end, by state;
  * `idle_edge`, `busy_edge` -- **what one edge does to an idle and to a busy controller**: take a
    command, take a payload line, hand over the response, or nothing of these;
  * `rank_edge` -- **a busy controller makes progress**: its rank, at most `Command.rankBound` when
    the command is accepted, never rises and drops at every edge that gives it what it waits for.
-/
import Frac.Reconf.Responses

namespace Frac.Reconf

open Clocked Bits

variable {slotCount : Nat}

/-! ## 1. Payload lines -/

/-- The payload lines a command needs: those of its bytes if it is a valid `WRITE_HBM`. -/
def payloadLines (slotCount : Nat) (t : BitVec 512) : Nat :=
  if (Command.ofLine t).verdict slotCount = .write then ((Command.ofLine t).size + 63) / 64 else 0

theorem payloadLines_write {t : BitVec 512}
    (h : (Command.ofLine t).verdict slotCount = .write) :
    payloadLines slotCount t = ((Command.ofLine t).size + 63) / 64 := if_pos h

theorem payloadLines_other {t : BitVec 512}
    (h : (Command.ofLine t).verdict slotCount ≠ .write) : payloadLines slotCount t = 0 := if_neg h

/-- The states in which a line of a write is under way. -/
def St.linePending : St → Bool
  | .writeAddr | .writeData | .writeResp => true
  | _ => false

/-- **The command `t` is accepted and not yet answered to the end; `j` payload lines are taken.** -/
inductive Busy (t : BitVec 512) (j : Nat) (s : Ctrl slotCount) : Prop where
  | wait (hs : s.state = .writeWaitData) (hv : (Command.ofLine t).verdict slotCount = .write)
      (hr : s.remainingBytes.toNat + 64 * j = (Command.ofLine t).size)
      (hp : 0 < s.remainingBytes.toNat)
  | line (hs : s.state.linePending = true) (hv : (Command.ofLine t).verdict slotCount = .write)
      (hr : s.remainingBytes.toNat + 64 * j = (Command.ofLine t).size + 64)
      (hp : 0 < s.remainingBytes.toNat) (hl : s.lineBytes.toNat = min 64 s.remainingBytes.toNat)
  | read (hs : s.state.reading = true) (hj : j = 0)
      (hv : (Command.ofLine t).verdict slotCount ≠ .write)
  | reconf (hs : s.state.reconf = true) (hj : j = 0)
      (hv : (Command.ofLine t).verdict slotCount ≠ .write)
      (hw : s.state ≠ .reconfWaitDone → 0 < s.icapWordsRemaining.toNat)
  | answer (hs : s.state.sends = true) (hj : j ≤ payloadLines slotCount t)
      (ho : s.response = .status .ok → j = payloadLines slotCount t)

theorem Busy.not_idle {t : BitVec 512} {j : Nat} {s : Ctrl slotCount} (h : Busy t j s) :
    s.state ≠ .idle := by
  intro e
  cases h with
  | wait hs => rw [e] at hs; cases hs
  | line hs | read hs | reconf hs | answer hs => rw [e] at hs; cases hs

/-- A command takes no more lines than it needs, and waits only for one it needs. -/
theorem Busy.lines_le {t : BitVec 512} {j : Nat} {s : Ctrl slotCount} (h : Busy t j s) :
    j ≤ payloadLines slotCount t ∧ (s.state = .writeWaitData → j < payloadLines slotCount t) := by
  cases h with
  | wait hs hv hr hp =>
      rw [payloadLines_write hv]
      exact ⟨by omega, fun _ => by omega⟩
  | line hs hv hr hp hl =>
      rw [payloadLines_write hv]
      exact ⟨by omega, fun e => by rw [e] at hs; cases hs⟩
  | read hs hj => exact ⟨by omega, fun e => by rw [e] at hs; cases hs⟩
  | reconf hs hj => exact ⟨by omega, fun e => by rw [e] at hs; cases hs⟩
  | answer hs hj => exact ⟨hj, fun e => by rw [e] at hs; cases hs⟩

/-! ## 2. One edge -/

theorem status_ne_ok {e : Err} (h : e ≠ .ok) : Resp.status e ≠ Resp.status .ok := by
  intro he
  exact h (Err.line_injective (congrArg Resp.tdata he))

/-- **An idle controller** answers nothing; it takes a command or stays idle. -/
theorem idle_edge {s : Ctrl slotCount} (hsg : Signals s) (hs : s.state = .idle) (i : In) :
    responseTaken s i = [] ∧
    ((i.sAxisTvalid && s.sAxisTready) = true ∧ Busy i.sAxisTdata 0 (s.edge i) ∨
      (i.sAxisTvalid && s.sAxisTready) = false ∧ (s.edge i).state = .idle) := by
  refine ⟨responseTaken_none (by rw [hsg.mAxisTvalid, hs]; rfl), ?_⟩
  cases hv : i.sAxisTvalid && s.sAxisTready with
  | false =>
      refine Or.inr ⟨rfl, ?_⟩
      generalize hs' : s.edge i = s'
      have hm := move_edge s i
      rw [hs'] at hm
      cases hm
      case idleHold => exact hs
      all_goals simp_all
  | true =>
      refine Or.inl ⟨rfl, ?_⟩
      rw [edge_accept (accepts_iff.mpr ⟨hs, hv⟩)]
      cases hvd : (Command.ofLine i.sAxisTdata).verdict slotCount with
      | reject e =>
          have hnone : payloadLines slotCount i.sAxisTdata = 0 :=
            payloadLines_other (by rw [hvd]; exact Verdict.noConfusion)
          exact .answer rfl (Nat.zero_le _) fun _ => hnone.symm
      | query =>
          have hnone : payloadLines slotCount i.sAxisTdata = 0 :=
            payloadLines_other (by rw [hvd]; exact Verdict.noConfusion)
          exact .answer rfl (Nat.zero_le _) fun _ => hnone.symm
      | write =>
          have hsize := (valid_of_verdict (Or.inl hvd)).sized
          refine .wait rfl hvd ?_ ?_
          · rw [Nat.mul_zero, Nat.add_zero, ← cmdSize_toNat]
            rfl
          · show 0 < (cmdSize i.sAxisTdata).toNat
            rw [cmdSize_toNat]
            exact Nat.pos_of_ne_zero hsize
      | read => exact .read rfl rfl (by rw [hvd]; exact Verdict.noConfusion)
      | reconf =>
          have hvalid := valid_of_verdict (Or.inr (Or.inr hvd))
          refine .reconf rfl rfl (by rw [hvd]; exact Verdict.noConfusion) fun _ => ?_
          have hsize := cmdSize_toNat i.sAxisTdata
          have hlt := (cmdSize i.sAxisTdata).isLt
          have h0 := hvalid.sized
          have h4 : (Command.ofLine i.sAxisTdata).size % 4 = 0 := by
            have hop : (Command.ofLine i.sAxisTdata).operation = .reconf :=
              (verdict_valid hvalid).symm.trans hvd
            refine hvalid.reconfSize ?_
            rcases hvalid.opcode with e | e | e
            · rw [Command.operation, if_pos e] at hop; cases hop
            · rw [Command.operation, if_neg (by omega), if_pos e] at hop; cases hop
            · exact e
          show 0 < (((cmdSize i.sAxisTdata).extractLsb' 2 62).setWidth 64).toNat
          rw [BitVec.toNat_setWidth, BitVec.extractLsb'_toNat, Nat.shiftRight_eq_div_pow]
          omega

/-- **A line of a write under way**: it stays, fails, is the last one, or leaves another to come. -/
theorem move_line {s s' : Ctrl slotCount} {i : In} (hm : Move s i s')
    (hs : s.state.linePending = true) :
    (s'.state.linePending = true ∧ s'.remainingBytes = s.remainingBytes ∧
      s'.lineBytes = s.lineBytes) ∨
    (i.bresp ≠ 0 ∧ s'.state.sends = true ∧ s'.response = .status .axiBresp) ∨
    (s.remainingBytes ≤ s.lineBytes.setWidth 64 ∧ s'.state.sends = true) ∨
    (¬ s.remainingBytes ≤ s.lineBytes.setWidth 64 ∧ s'.state = .writeWaitData ∧
      s'.remainingBytes = s.remainingBytes - s.lineBytes.setWidth 64) := by
  cases hm
  case holdAw => exact Or.inl ⟨hs, rfl, rfl⟩
  case takeAw => exact Or.inl ⟨rfl, rfl, rfl⟩
  case holdW => exact Or.inl ⟨hs, rfl, rfl⟩
  case takeW => exact Or.inl ⟨rfl, rfl, rfl⟩
  case holdB => exact Or.inl ⟨hs, rfl, rfl⟩
  case errB _ _ hb => exact Or.inr (Or.inl ⟨hb, rfl, rfl⟩)
  case nextHalf => exact Or.inl ⟨rfl, rfl, rfl⟩
  case writeDone _ _ _ _ hr => exact Or.inr (Or.inr (Or.inl ⟨hr, rfl⟩))
  case nextLine _ _ _ _ hr => exact Or.inr (Or.inr (Or.inr ⟨hr, rfl, rfl⟩))
  case holdAr addr ho he => rcases ho with ⟨e, -⟩ | ⟨e, -⟩ | ⟨e, -⟩ <;> rw [e] at hs <;> cases hs
  case takeAr addr next ho he =>
    rcases ho with ⟨e, -⟩ | ⟨e, -⟩ | ⟨e, -⟩ <;> rw [e] at hs <;> cases hs
  case holdR ho he => rcases ho with e | e | e <;> rw [e] at hs <;> cases hs
  case errR ho he _ _ => rcases ho with e | e | e <;> rw [e] at hs <;> cases hs
  case holdSend ho he => rcases ho with e | e <;> rw [e] at hs <;> cases hs
  case takeSend ho he => rcases ho with e | e <;> rw [e] at hs <;> cases hs
  all_goals simp_all [St.linePending]

/-- **A busy controller** takes a line of its payload, or hands the response over and is idle, or
    does neither and stays busy. -/
theorem busy_edge {s : Ctrl slotCount} {t : BitVec 512} {j : Nat} (hsg : Signals s)
    (h : Busy t j s) (i : In) :
    (i.sAxisTvalid && s.sAxisTready) = true ∧ responseTaken s i = [] ∧ Busy t (j + 1) (s.edge i) ∨
    (i.sAxisTvalid && s.sAxisTready) = false ∧ responseTaken s i = [] ∧ Busy t j (s.edge i) ∨
    (i.sAxisTvalid && s.sAxisTready) = false ∧ responseTaken s i = [s.response] ∧
      (s.edge i).state = .idle ∧ j ≤ payloadLines slotCount t ∧
      (s.response = .status .ok → j = payloadLines slotCount t) := by
  generalize hs' : s.edge i = s'
  have hm := move_edge s i
  rw [hs'] at hm
  have hmute : s.state.sends = false → responseTaken s i = [] := fun e =>
    responseTaken_none (by rw [hsg.mAxisTvalid, e]; rfl)
  have hdeaf : s.state.listens = false → (i.sAxisTvalid && s.sAxisTready) = false := fun e => by
    rw [hsg.sAxisTready e, Bool.and_false]
  cases h with
  | wait hs hv hr hp =>
      have hr0 := hmute (by rw [hs]; rfl)
      cases hm
      case waitLine ho he => exact Or.inr (Or.inl ⟨he, hr0, .wait hs hv hr hp⟩)
      case takeLine ho he =>
        refine Or.inl ⟨he, hr0, .line rfl hv ?_ hp (nextLineBytes_toNat _)⟩
        show s.remainingBytes.toNat + 64 * (j + 1) = _
        omega
      all_goals simp_all
  | line hs hv hr hp hl =>
      have hr0 := hmute (by revert hs; cases s.state <;> simp [St.linePending, St.sends])
      have hd0 := hdeaf (by revert hs; cases s.state <;> simp [St.linePending, St.listens])
      have hneed := payloadLines_write hv
      have hw64 : (s.lineBytes.setWidth 64).toNat = s.lineBytes.toNat := by
        rw [BitVec.toNat_setWidth]
        omega
      refine Or.inr (Or.inl ⟨hd0, hr0, ?_⟩)
      rcases move_line hm hs with ⟨h1, h2, h3⟩ | ⟨-, h1, h2⟩ | ⟨hle, h1⟩ | ⟨hgt, h1, h2⟩
      · exact .line h1 hv (by rw [h2]; exact hr) (by rw [h2]; exact hp) (by rw [h2, h3]; exact hl)
      · refine .answer h1 (by omega) fun e => ?_
        exact absurd (h2.symm.trans e) (status_ne_ok Err.noConfusion)
      · have hle' : s.remainingBytes.toNat ≤ (s.lineBytes.setWidth 64).toNat := hle
        exact .answer h1 (by omega) fun _ => by omega
      · have hgt' : ¬ s.remainingBytes.toNat ≤ (s.lineBytes.setWidth 64).toNat := hgt
        have hsub : s'.remainingBytes.toNat = s.remainingBytes.toNat - 64 := by
          rw [h2, BitVec.toNat_sub_of_le (Nat.le_of_not_le hgt')]
          omega
        exact .wait h1 hv (by omega) (by omega)
  | read hs hj hv =>
      have hr0 := hmute (by revert hs; cases s.state <;> simp [St.reading, St.sends])
      have hd0 := hdeaf (by revert hs; cases s.state <;> simp [St.reading, St.listens])
      have hdone : ∀ {s' : Ctrl slotCount}, s'.state.sends = true → Busy t j s' := fun e =>
        .answer e (hj ▸ Nat.zero_le _) fun _ => hj.trans (payloadLines_other hv).symm
      refine Or.inr (Or.inl ⟨hd0, hr0, ?_⟩)
      cases hm
      case holdAr => exact .read hs hj hv
      case takeAr addr next ho he =>
        rcases ho with ⟨e, -, rfl⟩ | ⟨e, -, rfl⟩ | ⟨e, -⟩
        · exact .read rfl hj hv
        · exact .read rfl hj hv
        · rw [e] at hs; cases hs
      case holdR => exact .read hs hj hv
      case errR => exact hdone rfl
      case read0More => exact .read rfl hj hv
      case read0Send => exact hdone rfl
      case read1Send => exact hdone rfl
      case holdSend ho he => rcases ho with e | e <;> rw [e] at hs <;> cases hs
      case takeSend ho he => rcases ho with e | e <;> rw [e] at hs <;> cases hs
      all_goals simp_all [St.reading]
  | reconf hs hj hv hw =>
      have hr0 := hmute (by revert hs; cases s.state <;> simp [St.reconf, St.sends])
      have hd0 := hdeaf (by revert hs; cases s.state <;> simp [St.reconf, St.listens])
      have hdone : ∀ {s' : Ctrl slotCount}, s'.state.sends = true → Busy t j s' := fun e =>
        .answer e (hj ▸ Nat.zero_le _) fun _ => hj.trans (payloadLines_other hv).symm
      have hless : s.icapWordsRemaining ≠ 1 → s.state ≠ .reconfWaitDone →
          0 < (s.icapWordsRemaining - 1).toNat := by
        intro h1 h2
        have hpos := hw h2
        have hne : s.icapWordsRemaining.toNat ≠ 1 := fun e => h1 (BitVec.eq_of_toNat_eq e)
        rw [BitVec.toNat_sub_of_le (show 1 ≤ s.icapWordsRemaining.toNat from hpos)]
        show 0 < s.icapWordsRemaining.toNat - 1
        omega
      refine Or.inr (Or.inl ⟨hd0, hr0, ?_⟩)
      cases hm
      case holdAr => exact .reconf hs hj hv hw
      case takeAr addr next ho he =>
        rcases ho with ⟨e, -⟩ | ⟨e, -⟩ | ⟨e, -, rfl⟩
        · rw [e] at hs; cases hs
        · rw [e] at hs; cases hs
        · exact .reconf rfl hj hv fun _ => hw (by rw [e]; decide)
      case holdR => exact .reconf hs hj hv hw
      case errR => exact hdone rfl
      case takeBeat ho _ _ _ => exact .reconf rfl hj hv fun _ => hw (by rw [ho]; decide)
      case holdWord => exact .reconf hs hj hv hw
      case lastWord => exact .reconf rfl hj hv fun e => absurd rfl e
      case beatEnd ho _ h1 _ => exact .reconf rfl hj hv fun _ => hless h1 (by rw [ho]; decide)
      case nextWord ho _ h1 _ => exact .reconf hs hj hv fun _ => hless h1 (by rw [ho]; decide)
      case waitDone ho _ _ => exact .reconf hs hj hv fun e => absurd ho e
      case finish => exact hdone rfl
      case holdSend ho he => rcases ho with e | e <;> rw [e] at hs <;> cases hs
      case takeSend ho he => rcases ho with e | e <;> rw [e] at hs <;> cases hs
      all_goals simp_all [St.reconf]
  | answer hs hj ho =>
      have hd0 := hdeaf (by revert hs; cases s.state <;> simp [St.sends, St.listens])
      rcases move_sends hm hs with ⟨h1, rfl⟩ | ⟨h1, rfl⟩
      · exact Or.inr (Or.inl ⟨hd0, responseTaken_none h1, .answer hs hj ho⟩)
      · exact Or.inr (Or.inr ⟨hd0, responseTaken_some h1, rfl, hj, ho⟩)

/-- A write that meets no error answers after its last line. -/
theorem busy_sends {s : Ctrl slotCount} {t : BitVec 512} {j : Nat} (h : Busy t j s)
    (ho : s.state.sends = true → j = payloadLines slotCount t) {i : In} (hb : i.bresp = 0)
    (hs' : (s.edge i).state.sends = true) : j = payloadLines slotCount t := by
  revert hs'
  generalize he : s.edge i = s'
  have hm := move_edge s i
  rw [he] at hm
  intro hs'
  cases h with
  | wait hs hv hr hp =>
      cases hm
      case waitLine => exact absurd hs' (by rw [show (latch s i).state = _ from hs]; decide)
      case takeLine => cases hs'
      all_goals simp_all
  | line hs hv hr hp hl =>
      have hneed := payloadLines_write hv
      rcases move_line hm hs with ⟨h1, -, -⟩ | ⟨h1, -, -⟩ | ⟨hle, -⟩ | ⟨-, h1, -⟩
      · revert h1 hs'
        cases s'.state <;> simp [St.linePending, St.sends]
      · exact absurd hb h1
      · have hle' : s.remainingBytes.toNat ≤ (s.lineBytes.setWidth 64).toNat := hle
        rw [BitVec.toNat_setWidth] at hle'
        omega
      · rw [h1] at hs'
        cases hs'
  | read hs hj hv => exact hj.trans (payloadLines_other hv).symm
  | reconf hs hj hv => exact hj.trans (payloadLines_other hv).symm
  | answer hs => exact ho hs

/-- A command answered at once needs no payload. -/
theorem accept_sends {s : Ctrl slotCount} {i : In} (hs : s.state = .idle)
    (hv : (i.sAxisTvalid && s.sAxisTready) = true) (hs' : (s.edge i).state.sends = true) :
    payloadLines slotCount i.sAxisTdata = 0 := by
  refine payloadLines_other fun hw => ?_
  rw [edge_accept (accepts_iff.mpr ⟨hs, hv⟩), hw] at hs'
  cases hs'

/-! ## 3. How long a command can take -/

/-- **Nothing is held back at this edge**: every partner of the controller is ready, and has what it
    may ask for. -/
def In.willing (i : In) : Bool :=
  i.mAxisTready && i.icapTready && i.icapPrDone && i.awready && i.wready && i.bvalid && i.arready &&
    i.rvalid

/-- The lines a write still has to finish, the one under way included. -/
def Ctrl.linesLeft (s : Ctrl slotCount) : Nat := (s.remainingBytes.toNat + 63) / 64

/-- **The willing edges a busy controller needs at most**: ten for a line of a write, two for a
    read address and one for its beat, four for a word of a reconfiguration. -/
def Ctrl.rank (s : Ctrl slotCount) : Nat :=
  match s.state with
  | .idle | .other => 0
  | .sendStatus | .readSend => 1
  | .writeWaitData => 10 * s.linesLeft + (if s.sAxisTready then 0 else 1)
  | .writeAddr => 10 * (s.linesLeft - 1) + (if s.halfSelect then 4 else 8) + (if s.awvalid then 0 else 1)
  | .writeData => 10 * (s.linesLeft - 1) + (if s.halfSelect then 3 else 7)
  | .writeResp => 10 * (s.linesLeft - 1) + (if s.halfSelect then 2 else 6)
  | .readAddr0 => 7 + (if s.arvalid then 0 else 1)
  | .readData0 => 6
  | .readAddr1 => 4 + (if s.arvalid then 0 else 1)
  | .readData1 => 3
  | .reconfAddr => 4 * s.icapWordsRemaining.toNat + 4 + (if s.arvalid then 0 else 1)
  | .reconfData => 4 * s.icapWordsRemaining.toNat + 3
  | .reconfStream => 4 * s.icapWordsRemaining.toNat + 2
  | .reconfWaitDone => 2

/-- The edge gives the controller what its state waits for. -/
def Ctrl.fed (s : Ctrl slotCount) (i : In) : Bool :=
  i.willing && (decide (s.state ≠ .writeWaitData) || i.sAxisTvalid)

theorem fed_partners {s : Ctrl slotCount} {i : In} (h : s.fed i = true) :
    (i.mAxisTready = true ∧ i.icapTready = true ∧ i.icapPrDone = true) ∧
    (i.awready = true ∧ i.wready = true ∧ i.bvalid = true) ∧
    (i.arready = true ∧ i.rvalid = true) ∧ (s.state = .writeWaitData → i.sAxisTvalid = true) := by
  simp only [Ctrl.fed, In.willing, Bool.and_eq_true, Bool.or_eq_true, decide_eq_true_eq] at h
  obtain ⟨⟨⟨⟨⟨⟨⟨⟨h1, h2⟩, h3⟩, h4⟩, h5⟩, h6⟩, h7⟩, h8⟩, h9⟩ := h
  exact ⟨⟨h1, h2, h3⟩, ⟨h4, h5, h6⟩, ⟨h7, h8⟩, fun e => h9.resolve_left (absurd e)⟩

/-- What the counters of a busy controller are worth in the state it is in. -/
theorem Busy.counters {t : BitVec 512} {j : Nat} {s : Ctrl slotCount} (h : Busy t j s) :
    (s.state = .writeWaitData → 0 < s.remainingBytes.toNat) ∧
    (s.state = .writeResp →
      0 < s.remainingBytes.toNat ∧ s.lineBytes.toNat = min 64 s.remainingBytes.toNat) ∧
    (s.state = .reconfStream → 0 < s.icapWordsRemaining.toNat) := by
  refine ⟨fun e => ?_, fun e => ?_, fun e => ?_⟩ <;> cases h with
  | wait hs hv hr hp => first | exact hp | (rw [e] at hs; cases hs)
  | line hs hv hr hp hl => first | exact ⟨hp, hl⟩ | (rw [e] at hs; cases hs)
  | reconf hs hj hv hw => first | exact hw (by rw [e]; decide) | (rw [e] at hs; cases hs)
  | read hs => rw [e] at hs; cases hs
  | answer hs => rw [e] at hs; cases hs

theorem Busy.rank_pos {t : BitVec 512} {j : Nat} {s : Ctrl slotCount} (hsg : Signals s)
    (h : Busy t j s) : 0 < s.rank := by
  have hidle := h.not_idle
  have hdef := hsg.defined
  obtain ⟨hwait, -⟩ := h.counters
  rw [Ctrl.rank]
  cases hs : s.state with
  | idle => exact absurd hs hidle
  | other => exact absurd hs hdef
  | writeWaitData =>
      have hp := hwait hs
      rw [Ctrl.linesLeft]
      show 0 < _ + _
      omega
  | writeAddr | writeData | writeResp => simp only; split <;> omega
  | _ => simp

theorem idle_tready {s : Ctrl slotCount} {i : In} (hs : s.state = .idle)
    (hno : (i.sAxisTvalid && s.sAxisTready) = false) : (s.edge i).sAxisTready = true := by
  generalize he : s.edge i = s'
  have hm := move_edge s i
  rw [he] at hm
  cases hm
  case idleHold => rfl
  all_goals simp_all

/-- **A busy controller makes progress**: no edge raises its rank, and one that feeds it lowers it. -/
theorem rank_edge {s : Ctrl slotCount} {t : BitVec 512} {j : Nat} (hsg : Signals s)
    (h : Busy t j s) (i : In) :
    (s.edge i).rank ≤ s.rank ∧ (s.fed i = true → (s.edge i).rank < s.rank) := by
  have hidle := h.not_idle
  obtain ⟨hwait, hline, hwords⟩ := h.counters
  have hless : s.state = .reconfStream →
      (s.icapWordsRemaining - 1).toNat + 1 = s.icapWordsRemaining.toNat := by
    intro e
    have hp := hwords e
    rw [BitVec.toNat_sub_of_le (show 1 ≤ s.icapWordsRemaining.toNat from hp)]
    exact Nat.sub_add_cancel hp
  generalize hs' : s.edge i = s'
  have hm := move_edge s i
  rw [hs'] at hm
  have hlow : s'.rank < s.rank → s'.rank ≤ s.rank ∧ (s.fed i = true → s'.rank < s.rank) :=
    fun e => ⟨e.le, fun _ => e⟩
  -- a handshake that an edge withholds is one that a feeding edge would have given
  have hgiven : ∀ {a b : Bool}, (a && b) = false → b = true → a = false := by decide
  have hgiven' : ∀ {a b : Bool}, (a && b) = false → a = true → b = false := by decide
  cases hm
  case idleHold hs _ => exact absurd hs hidle
  case reject hs _ _ _ _ => exact absurd hs hidle
  case query hs _ _ => exact absurd hs hidle
  case startWrite hs _ _ => exact absurd hs hidle
  case startRead hs _ _ => exact absurd hs hidle
  case startReconf hs _ _ => exact absurd hs hidle
  case undefined hs => exact absurd hs hsg.defined
  case waitLine hs he =>
    simp only [Ctrl.rank, Ctrl.linesLeft, latch, hs, if_true]
    refine ⟨by omega, fun hf => ?_⟩
    rw [hgiven' he ((fed_partners hf).2.2.2 hs)]
    simp
  case takeLine hs he =>
    have hp := hwait hs
    have haw := hsg.awvalid (by rw [hs]; decide)
    refine hlow ?_
    simp [Ctrl.rank, Ctrl.linesLeft, latch, hs, haw]
    omega
  case holdAw hs he =>
    simp only [Ctrl.rank, Ctrl.linesLeft, latch, hs, if_true]
    refine ⟨by omega, fun hf => ?_⟩
    rw [hgiven he (fed_partners hf).2.1.1]
    simp
  case takeAw hs he =>
    refine hlow ?_
    simp only [Ctrl.rank, Ctrl.linesLeft, latch, hs]
    split <;> omega
  case holdW hs he =>
    have hv : s.wvalid = true := by rw [hsg.wvalid, hs]; rfl
    refine ⟨by simp [Ctrl.rank, Ctrl.linesLeft, latch, hs], fun hf => ?_⟩
    rw [hv, (fed_partners hf).2.1.2.1] at he
    cases he
  case takeW hs he =>
    refine hlow ?_
    simp only [Ctrl.rank, Ctrl.linesLeft, latch, hs]
    split <;> omega
  case holdB hs he =>
    have hv : s.bready = true := by rw [hsg.bready, hs]; rfl
    refine ⟨by simp [Ctrl.rank, Ctrl.linesLeft, latch, hs], fun hf => ?_⟩
    rw [hv, (fed_partners hf).2.1.2.2] at he
    cases he
  case errB hs he hb =>
    refine hlow ?_
    simp only [Ctrl.rank, Ctrl.linesLeft, startStatus, hs]
    split <;> omega
  case nextHalf hs he hb hh hl =>
    have haw := hsg.awvalid (by rw [hs]; decide)
    refine hlow ?_
    simp [Ctrl.rank, Ctrl.linesLeft, latch, hs, hh, haw]
  case writeDone hs he hb hh hr =>
    refine hlow ?_
    simp only [Ctrl.rank, Ctrl.linesLeft, startStatus, hs]
    split <;> omega
  case nextLine hs he hb hh hr =>
    obtain ⟨hp, hl⟩ := hline hs
    have hrdy := hsg.sAxisTready (by rw [hs]; rfl)
    have hw64 : (s.lineBytes.setWidth 64).toNat = s.lineBytes.toNat := by
      rw [BitVec.toNat_setWidth]
      omega
    have hr' : ¬ s.remainingBytes.toNat ≤ (s.lineBytes.setWidth 64).toNat := hr
    have hsub : (s.remainingBytes - s.lineBytes.setWidth 64).toNat =
        s.remainingBytes.toNat - 64 := by
      rw [BitVec.toNat_sub_of_le (Nat.le_of_not_le hr')]
      omega
    refine hlow ?_
    simp only [Ctrl.rank, Ctrl.linesLeft, latch, hs, hrdy, hsub, Bool.false_eq_true, if_false]
    split <;> omega
  case holdAr addr hs he =>
    have hstep : ∀ {c : Nat}, c ≤ c + (if s.arvalid = true then 0 else 1) ∧
        (s.fed i = true → c < c + (if s.arvalid = true then 0 else 1)) := by
      refine ⟨by omega, fun hf => ?_⟩
      rw [hgiven he (fed_partners hf).2.2.1.1]
      simp
    rcases hs with ⟨hs, -⟩ | ⟨hs, -⟩ | ⟨hs, -⟩ <;> simp only [Ctrl.rank, latch, hs] <;> exact hstep
  case takeAr addr next hs he =>
    refine hlow ?_
    rcases hs with ⟨hs, -, rfl⟩ | ⟨hs, -, rfl⟩ | ⟨hs, -, rfl⟩ <;> simp only [Ctrl.rank, latch, hs] <;>
      omega
  case holdR hs he =>
    have hv : s.rready = true := by
      rw [hsg.rready]
      rcases hs with e | e | e <;> rw [e] <;> rfl
    refine ⟨?_, fun hf => ?_⟩
    · rcases hs with e | e | e <;> simp [Ctrl.rank, latch, e]
    · rw [hv, (fed_partners hf).2.2.1.2] at he
      cases he
  case errR hs he e _ =>
    refine hlow ?_
    rcases hs with hs | hs | hs <;> simp only [Ctrl.rank, startStatus, hs] <;> omega
  case read0More hs he hr hl hm =>
    have har := hsg.arvalid (by rw [hs]; rfl)
    refine hlow ?_
    simp [Ctrl.rank, latch, hs, har]
  case read0Send hs he hr hl hm =>
    refine hlow ?_
    simp only [Ctrl.rank, readSendLine, hs]
    omega
  case read1Send hs he hr hl =>
    refine hlow ?_
    simp only [Ctrl.rank, readSendLine, hs]
    omega
  case holdSend hs he =>
    have hv : s.mAxisTvalid = true := by
      rw [hsg.mAxisTvalid]
      rcases hs with e | e <;> rw [e] <;> rfl
    refine ⟨?_, fun hf => ?_⟩
    · rcases hs with e | e <;> simp [Ctrl.rank, latch, e]
    · rw [hv, (fed_partners hf).1.1] at he
      cases he
  case takeSend hs he =>
    refine hlow ?_
    rcases hs with hs | hs <;> simp [Ctrl.rank, hs]
  case takeBeat hs he hr hl =>
    refine hlow ?_
    simp [Ctrl.rank, latch, hs]
  case holdWord hs he =>
    have hv : s.icapTvalid = true := by rw [hsg.icapTvalid, hs]; rfl
    refine ⟨by simp [Ctrl.rank, latch, hs], fun hf => ?_⟩
    rw [hv, (fed_partners hf).1.2.1] at he
    cases he
  case lastWord hs he hw =>
    refine hlow ?_
    simp [Ctrl.rank, hs, hw]
  case beatEnd hs he hw hx =>
    have hsub := hless hs
    have har := hsg.arvalid (by rw [hs]; rfl)
    refine hlow ?_
    simp only [Ctrl.rank, latch, hs, har, Bool.false_eq_true, if_false]
    omega
  case nextWord hs he hw hx =>
    have hsub := hless hs
    refine hlow ?_
    simp only [Ctrl.rank, latch, hs]
    omega
  case waitDone hs he hd =>
    refine ⟨by simp [Ctrl.rank, latch, hs], fun hf => ?_⟩
    rw [(fed_partners hf).1.2.2] at hd
    cases hd
  case finish hs e he =>
    refine hlow ?_
    simp [Ctrl.rank, finishReconf, startStatus, hs]

/-- The rank a command starts with at most. -/
def Command.rankBound (c : Command) : Nat := 10 * ((c.size + 63) / 64) + c.size + 8

theorem accept_rank {s : Ctrl slotCount} (hsg : Signals s) (hs : s.state = .idle) (i : In)
    (hv : (i.sAxisTvalid && s.sAxisTready) = true) :
    (s.edge i).rank ≤ (Command.ofLine i.sAxisTdata).rankBound := by
  have hsize := cmdSize_toNat i.sAxisTdata
  have har := hsg.arvalid (by rw [hs]; rfl)
  generalize hs' : s.edge i = s'
  have hm := move_edge s i
  rw [hs'] at hm
  cases hm
  case idleHold _ he => rw [hv] at he; cases he
  case reject => simp [Ctrl.rank, startStatus, Command.rankBound]
  case query => simp [Ctrl.rank, startQueryStatus, Command.rankBound]
  case startWrite =>
    simp [Ctrl.rank, Ctrl.linesLeft, startWrite, idleRegs, Command.rankBound, hsize]
    omega
  case startRead =>
    simp [Ctrl.rank, startRead, idleRegs, latch, Command.rankBound, har]
  case startReconf =>
    have hwords : (((cmdSize i.sAxisTdata).extractLsb' 2 62).setWidth 64).toNat * 4 ≤
        (Command.ofLine i.sAxisTdata).size := by
      rw [BitVec.toNat_setWidth, BitVec.extractLsb'_toNat, Nat.shiftRight_eq_div_pow, ← hsize]
      omega
    simp [Ctrl.rank, startReconf, idleRegs, Command.rankBound]
    omega
  all_goals simp_all

end Frac.Reconf
