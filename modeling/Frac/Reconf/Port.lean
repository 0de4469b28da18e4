/-
  File:      Frac/Reconf/Port.lean
  Subject:   The response port of the controller: what stands on `m_axis`, what is handshaken
             there, and that between two commands exactly one line leaves.

  * `Resp`, `responseTaken` -- a response line, and the one handshaken at an edge;
  * `Serving` -- the edge belongs to the command accepted last;
  * `Framed` -- a line that is offered is a whole frame (`framed_reachable`);
  * `Served` -- a command from its acceptance to the next: no line yet, or exactly the one still
    in the data register (`served_run`).
-/
import Frac.Reconf.System

namespace Frac.Reconf

open Clocked

variable {slotCount : Nat}

/-! ## 1. Response lines -/

/-- One response line, with its side signals. -/
structure Resp where
  tdata : BitVec 512
  tkeep : BitVec 64
  tlast : Bool
  deriving DecidableEq

/-- A line that is a frame of its own, every byte of it kept. -/
def Resp.line (tdata : BitVec 512) : Resp := ⟨tdata, BitVec.allOnes 64, true⟩

/-- The one-line status response. -/
def Resp.status (e : Err) : Resp := .line (e.code.setWidth 512)

/-- What stands on `m_axis`. -/
def Ctrl.response (s : Ctrl slotCount) : Resp := ⟨s.mAxisTdata, s.mAxisTkeep, s.mAxisTlast⟩

/-- The response line handshaken at an edge. -/
def responseTaken (s : Ctrl slotCount) (i : In) : List Resp :=
  if s.mAxisTvalid && i.mAxisTready then [s.response] else []

theorem responseTaken_none {s : Ctrl slotCount} {i : In}
    (h : (s.mAxisTvalid && i.mAxisTready) = false) : responseTaken s i = [] :=
  if_neg (Bool.eq_false_iff.mp h)

theorem responseTaken_some {s : Ctrl slotCount} {i : In}
    (h : (s.mAxisTvalid && i.mAxisTready) = true) : responseTaken s i = [s.response] := if_pos h

/-- The edge belongs to the command accepted last: no reset, no further command. -/
def Serving (y : Sys slotCount) (i : In) : Prop := i.rst = false ∧ accepts y.ctrl i = false

instance (y : Sys slotCount) (i : In) : Decidable (Serving y i) :=
  inferInstanceAs (Decidable (_ ∧ _))

/-! ## 2. An offered line is a frame, and stands still -/

/-- **An offered line is a frame of its own.** -/
def Framed (s : Ctrl slotCount) : Prop :=
  s.state.sends = true → s.response = .line s.mAxisTdata

theorem framed_edge {s : Ctrl slotCount} (h : Framed s) (i : In) : Framed (s.edge i) := by
  generalize hs' : s.edge i = s'
  have hm := move_edge s i
  rw [hs'] at hm
  intro hsend
  cases hm
  case holdSend => exact h hsend
  case takeAr addr next hs _ => rcases hs with ⟨-, -, rfl⟩ | ⟨-, -, rfl⟩ | ⟨-, -, rfl⟩ <;> cases hsend
  case holdAr addr hs _ => exact h hsend
  case holdR hs _ => exact h hsend
  all_goals first
    | rfl
    | cases hsend
    | simp_all [idleRegs, latch, St.sends]

theorem framed_clock {s : Ctrl slotCount} (h : Framed s) (i : In) : Framed (s.clock i) := by
  unfold Ctrl.clock
  cases i.rst with
  | true => exact fun e => by cases e
  | false => exact framed_edge h i

theorem framed_reachable {ok : Sys slotCount → In → Prop} {mem : Mem 33} {y : Sys slotCount}
    (h : Reachable Sys.clock ok (Sys.init slotCount mem) y) : Framed y.ctrl :=
  h.invariant (P := fun y => Framed y.ctrl) (fun e => by cases e)
    fun _ i hy _ => framed_clock hy i

/-- The moves of a controller that offers a line: hold it, or hand it over and be idle. -/
theorem move_sends {s s' : Ctrl slotCount} {i : In} (hm : Move s i s') (hs : s.state.sends = true) :
    (s.mAxisTvalid && i.mAxisTready) = false ∧ s' = latch s i ∨
    (s.mAxisTvalid && i.mAxisTready) = true ∧
      s' = { latch s i with mAxisTvalid := false, mAxisTlast := false, state := .idle } := by
  cases hm
  case holdSend _ h => exact Or.inl ⟨h, rfl⟩
  case takeSend _ h => exact Or.inr ⟨h, rfl⟩
  case holdAr addr hst _ => rcases hst with ⟨e, -⟩ | ⟨e, -⟩ | ⟨e, -⟩ <;> rw [e] at hs <;> cases hs
  case takeAr addr next hst _ =>
    rcases hst with ⟨e, -⟩ | ⟨e, -⟩ | ⟨e, -⟩ <;> rw [e] at hs <;> cases hs
  case holdR hst _ => rcases hst with e | e | e <;> rw [e] at hs <;> cases hs
  case errR hst _ _ _ => rcases hst with e | e | e <;> rw [e] at hs <;> cases hs
  all_goals simp_all [St.sends]

/-- The answer waits, or has been taken: the line stays in its register. -/
theorem move_answered {s s' : Ctrl slotCount} {i : In} {c : St} (hm : Move s i s')
    (ha : accepts s i = false) (hc : c.sends = true) (hs : s.state = c ∨ s.state = .idle) :
    (s'.state = c ∨ s'.state = .idle) ∧ s'.mAxisTdata = s.mAxisTdata := by
  rcases hs with e | e
  · rcases move_sends hm (by rw [e]; exact hc) with ⟨-, rfl⟩ | ⟨-, rfl⟩
    · exact ⟨Or.inl e, rfl⟩
    · exact ⟨Or.inr rfl, rfl⟩
  · rw [accepts_idle e] at ha
    cases hm
    case idleHold => exact ⟨Or.inr e, rfl⟩
    all_goals simp_all

/-! ## 3. One line for one command -/

/-- **A command from its acceptance to the next one**: nothing has left yet, or the one line left
    that the data register still shows. -/
structure Served (z : Sys slotCount) (taken : List Resp) : Prop where
  signals : Signals z.ctrl
  framed : Framed z.ctrl
  phase : z.ctrl.state ≠ .idle ∧ taken = [] ∨
    z.ctrl.state = .idle ∧ taken = [.line z.ctrl.mAxisTdata]

/-- Accepting a command leaves `STATE_IDLE`. -/
theorem move_accept {s s' : Ctrl slotCount} {i : In} (hm : Move s i s') (ha : accepts s i = true) :
    s'.state ≠ .idle := by
  obtain ⟨hs, hv⟩ := accepts_iff.mp ha
  cases hm
  case holdAr addr hst _ => rcases hst with ⟨e, -⟩ | ⟨e, -⟩ | ⟨e, -⟩ <;> rw [hs] at e <;> cases e
  case takeAr addr next hst _ =>
    rcases hst with ⟨e, -⟩ | ⟨e, -⟩ | ⟨e, -⟩ <;> rw [hs] at e <;> cases e
  all_goals simp_all [startStatus, startQueryStatus, startWrite, startRead, startReconf]

/-- A controller that is not idle becomes idle by handing its line over. -/
theorem move_to_idle {s s' : Ctrl slotCount} {i : In} (hm : Move s i s') (hs : s.state ≠ .idle)
    (hd : s.state ≠ .other) (hs' : s'.state = .idle) : s.state.sends = true := by
  cases hm
  case takeSend ho _ => rcases ho with e | e <;> rw [e] <;> rfl
  case takeAr addr next ho _ =>
    rcases ho with ⟨e, -, rfl⟩ | ⟨e, -, rfl⟩ | ⟨e, -, rfl⟩ <;> cases hs'
  case finish => cases hs'
  all_goals simp_all [startStatus, readSendLine, latch]

theorem served_start {y : Sys slotCount} (hsg : Signals y.ctrl) (hf : Framed y.ctrl) {i : In}
    (hrst : i.rst = false) (ha : accepts y.ctrl i = true) : Served (y.clock i) [] := by
  obtain ⟨s', hs', hm⟩ := clock_move y hrst
  refine ⟨signals_clock hsg i, framed_clock hf i, Or.inl ⟨?_, rfl⟩⟩
  rw [hs']
  exact move_accept hm ha

theorem served_edge {z : Sys slotCount} {i : In} {taken : List Resp} (h : Served z taken)
    (hi : Serving z i) : Served (z.clock i) (taken ++ responseTaken z.ctrl i) := by
  obtain ⟨hsg, hf, hph⟩ := h
  obtain ⟨hrst, ha⟩ := hi
  refine ⟨signals_clock hsg i, framed_clock hf i, ?_⟩
  obtain ⟨s', hs', hm⟩ := clock_move z hrst
  rw [hs']
  rcases hph with ⟨hs, rfl⟩ | ⟨hs, rfl⟩
  · rw [List.nil_append]
    cases hsend : z.ctrl.state.sends with
    | true =>
        rcases move_sends hm hsend with ⟨h1, rfl⟩ | ⟨h1, rfl⟩
        · exact Or.inl ⟨hs, responseTaken_none h1⟩
        · exact Or.inr ⟨rfl, (responseTaken_some h1).trans (by rw [hf hsend]; rfl)⟩
    | false =>
        refine Or.inl ⟨fun hidle => ?_, responseTaken_none (by rw [hsg.mAxisTvalid, hsend]; rfl)⟩
        rw [move_to_idle hm hs hsg.defined hidle] at hsend
        cases hsend
  · have hnone : responseTaken z.ctrl i = [] :=
      responseTaken_none (by rw [hsg.mAxisTvalid, hs]; rfl)
    rw [hnone, List.append_nil]
    rw [accepts_idle hs] at ha
    cases hm
    case idleHold ho he => exact Or.inr ⟨hs, rfl⟩
    all_goals simp_all

/-- **Between two commands exactly one line leaves**, and it stays in the data register. -/
theorem served_run {y : Sys slotCount} (hsg : Signals y.ctrl) (hf : Framed y.ctrl) {i : In}
    (hrst : i.rst = false) (ha : accepts y.ctrl i = true) {js : List In}
    (hm : Meets Sys.clock Serving (y.clock i) js) :
    Served (run Sys.clock (y.clock i) js)
      (log Sys.clock (fun z j => responseTaken z.ctrl j) (y.clock i) js) :=
  run_log (P := fun z l => Served z l) (fun _ _ _ h hj => served_edge h hj)
    (served_start hsg hf hrst ha) js hm

end Frac.Reconf
