/-
  File:      Frac/Control/Lifecycle.lean
  Subject:   The run of the kernel under the host's control (`ipcore_top_top_k.v`): a rising `ap_start`
             loads `countDown` with `runForCycles`, and when it has run out `ap_done` and `ap_ready`
             are high for one edge, by which the control port clears `ap_start`.

  * `Ipcore.clock` -- one clock edge of the control port and the counter behind it;
  * `Stage`, `Ipcore.At` -- **where a run stands**; `at_clock` -- what an edge makes of it, `at_run`;
  * `experiment_length` -- **a run takes `runForCycles + 2` edges**, whatever the host does meanwhile;
  * `start_latched` -- **an `ap_start` that is not low after `ap_ready` stays for good**: a start that
    the host writes at that edge is lost, and `auto_restart` starts nothing, now or later;
  * `reset_reports` -- a reset leaves `ap_done` as it is, and the edge after it takes note;
  * `experiments_counted` -- a run that ends is reported at most once.
-/
import Frac.Control.Registers

namespace Frac.Control

open Clocked

/-! ## 1. The kernel -/

structure Ipcore where
  port : Port
  apStartR : Bool
  countDown : BitVec 64
  finishExperiment : Bool
  finishPulse : Bool

namespace Ipcore

/-- After a reset; `ap_start_r` and `finishPulse` have none. -/
def reset (waddr : BitVec 7) (rdata : BitVec 32) (apStartR finishPulse : Bool) : Ipcore :=
  ⟨.reset waddr rdata, apStartR, 0, true, finishPulse⟩

variable (k : Ipcore) (i : PortIn)

/-- `ap_done`, `ap_ready`, `ap_idle`. -/
def status : Status := ⟨k.finishPulse, k.finishPulse, k.finishExperiment⟩

def apStart : Bool := k.port.file.intApStart
def apStartPulse : Bool := k.apStart && !k.apStartR

/-- The host writes a one to `ap_start` at this edge. -/
def starts : Bool := File.starts (k.port.wHs i)

/-- **One clock edge.** `rst` is the reset of the control port. -/
def clock : Ipcore where
  port := k.port.clock i k.status
  apStartR := k.apStart
  countDown :=
    if i.areset then 0
    else if k.apStartPulse then k.port.file.intRunForCycles
    else if k.countDown = 0 then 0
    else k.countDown - 1
  finishExperiment :=
    if i.areset then true
    else if k.apStartPulse then false
    else if k.countDown = 0 then true
    else k.finishExperiment
  finishPulse :=
    if i.areset then k.finishPulse
    else if k.apStartPulse then k.finishPulse
    else if k.countDown = 0 then !k.finishExperiment
    else k.finishPulse

end Ipcore

/-! ## 2. Where a run stands -/

inductive Stage where
  /-- no run -/
  | idle
  /-- `ap_start` has risen -/
  | armed
  /-- the counter -/
  | running (left : BitVec 64)
  /-- `ap_done` and `ap_ready` are high -/
  | done
  /-- `ap_start` has stayed high behind the run -/
  | latched
  /-- in a reset, or just out of one, with `ap_done` still high -/
  | echo

namespace Ipcore

/-- The registers of a stage. -/
def At (k : Ipcore) : Stage → Prop
  | .idle => k.apStart = false ∧ k.countDown = 0 ∧ k.finishExperiment = true ∧ k.finishPulse = false
  | .armed => (k.apStart = true ∧ k.apStartR = false) ∧ k.countDown = 0 ∧ k.finishExperiment = true ∧
      k.finishPulse = false
  | .running left => (k.apStart = true ∧ k.apStartR = true) ∧ k.countDown = left ∧ k.finishExperiment = false ∧
      k.finishPulse = false
  | .done => (k.apStart = true ∧ k.apStartR = true) ∧ k.countDown = 0 ∧ k.finishExperiment = true ∧
      k.finishPulse = true
  | .latched => (k.apStart = true ∧ k.apStartR = true) ∧ k.countDown = 0 ∧ k.finishExperiment = true ∧
      k.finishPulse = false
  | .echo => (k.port.file = .reset ∧ k.port.wstate = .wrreset) ∧ k.countDown = 0 ∧ k.finishExperiment = true ∧
      k.finishPulse = true

/-- The stage after an edge with `rst` low. -/
def next (k : Ipcore) (i : PortIn) : Stage → Stage
  | .idle => if k.starts i then .armed else .idle
  | .armed => .running k.port.file.intRunForCycles
  | .running left => if left = 0 then .done else .running (left - 1)
  | .done => if k.starts i || k.port.file.intAutoRestart then .latched else .idle
  | .latched => .latched
  | .echo => .idle

variable {k : Ipcore} {i : PortIn}

/-- `ap_start` at an edge. -/
theorem apStart_clock (hrst : i.areset = false) :
    (k.clock i).apStart = if k.starts i then true else if k.finishPulse then k.port.file.intAutoRestart
      else k.apStart := by
  show (if i.areset then File.reset else k.port.file.edge (k.port.wHs i) (k.port.arHs i) k.status).intApStart = _
  rw [hrst]
  rfl

/-- An edge at which `ap_start` does not rise, with the counter at zero. -/
theorem clock_zero (hrst : i.areset = false) (hpulse : k.apStartPulse = false) (hc : k.countDown = 0) :
    (k.clock i).countDown = 0 ∧ (k.clock i).finishExperiment = true ∧
      (k.clock i).finishPulse = !k.finishExperiment := by
  unfold clock
  simp [hrst, hpulse, hc]

/-- And with the counter above zero. -/
theorem clock_counts (hrst : i.areset = false) (hpulse : k.apStartPulse = false) (hc : k.countDown ≠ 0) :
    (k.clock i).countDown = k.countDown - 1 ∧ (k.clock i).finishExperiment = k.finishExperiment ∧
      (k.clock i).finishPulse = k.finishPulse := by
  unfold clock
  rw [hrst, hpulse]
  exact ⟨if_neg hc, if_neg hc, if_neg hc⟩

/-- `ap_start` stays high but for an `ap_ready`. -/
theorem apStart_stays (hrst : i.areset = false) (hs : k.apStart = true) (hp : k.finishPulse = false) :
    (k.clock i).apStart = true := by
  rw [apStart_clock hrst, hp, hs]
  simp

theorem apStartPulse_low (hsr : k.apStartR = true) : k.apStartPulse = false := by
  rw [apStartPulse, hsr]
  exact Bool.and_false _

theorem idle_clock (h : k.At .idle) (hrst : i.areset = false) :
    (k.clock i).At (if k.starts i then .armed else .idle) := by
  obtain ⟨hs, hc, hf, hp⟩ := h
  obtain ⟨hc', hf', hp'⟩ := clock_zero hrst (by rw [apStartPulse, hs]; rfl) hc
  rw [hf] at hp'
  have hstart := apStart_clock (k := k) hrst
  rw [hp, hs] at hstart
  cases hgo : k.starts i with
  | false =>
      rw [hgo] at hstart
      exact ⟨hstart, hc', hf', hp'⟩
  | true =>
      rw [hgo] at hstart
      exact ⟨⟨hstart, hs⟩, hc', hf', hp'⟩

theorem armed_clock (h : k.At .armed) (hrst : i.areset = false) :
    (k.clock i).At (.running k.port.file.intRunForCycles) := by
  obtain ⟨⟨hs, hsr⟩, -, -, hp⟩ := h
  have hpulse : k.apStartPulse = true := by rw [apStartPulse, hs, hsr]; rfl
  refine ⟨⟨apStart_stays hrst hs hp, hs⟩, ?_, ?_, ?_⟩ <;> unfold clock <;> simp [hrst, hpulse, hp]

theorem running_clock {left : BitVec 64} (h : k.At (.running left)) (hrst : i.areset = false) :
    (k.clock i).At (if left = 0 then .done else .running (left - 1)) := by
  obtain ⟨⟨hs, hsr⟩, rfl, hf, hp⟩ := h
  have hstart : (k.clock i).apStart = true := apStart_stays hrst hs hp
  split
  · next hz =>
      obtain ⟨hc', hf', hp'⟩ := clock_zero hrst (apStartPulse_low hsr) hz
      rw [hf] at hp'
      exact ⟨⟨hstart, hs⟩, hc', hf', hp'⟩
  · next hz =>
      obtain ⟨hc', hf', hp'⟩ := clock_counts hrst (apStartPulse_low hsr) hz
      exact ⟨⟨hstart, hs⟩, hc', hf'.trans hf, hp'.trans hp⟩

/-- **The edge of `ap_ready`**: `ap_start` is cleared, or rises no more. -/
theorem done_clock (h : k.At .done) (hrst : i.areset = false) :
    (k.clock i).At (if k.starts i || k.port.file.intAutoRestart then .latched else .idle) := by
  obtain ⟨⟨hs, hsr⟩, hc, hf, hp⟩ := h
  obtain ⟨hc', hf', hp'⟩ := clock_zero hrst (apStartPulse_low hsr) hc
  rw [hf] at hp'
  have hstart : (k.clock i).apStart = (k.starts i || k.port.file.intAutoRestart) := by
    rw [apStart_clock hrst, hp]
    cases k.starts i <;> simp
  cases hgo : k.starts i || k.port.file.intAutoRestart with
  | false => exact ⟨hstart.trans hgo, hc', hf', hp'⟩
  | true => exact ⟨⟨hstart.trans hgo, hs⟩, hc', hf', hp'⟩

theorem latched_clock (h : k.At .latched) (hrst : i.areset = false) : (k.clock i).At .latched := by
  obtain ⟨⟨hs, hsr⟩, hc, hf, hp⟩ := h
  obtain ⟨hc', hf', hp'⟩ := clock_zero hrst (apStartPulse_low hsr) hc
  rw [hf] at hp'
  exact ⟨⟨apStart_stays hrst hs hp, hs⟩, hc', hf', hp'⟩

theorem echo_clock (h : k.At .echo) (hrst : i.areset = false) : (k.clock i).At .idle := by
  obtain ⟨⟨hfile, hw⟩, hc, hf, hp⟩ := h
  have hs : k.apStart = false := congrArg File.intApStart hfile
  obtain ⟨hc', hf', hp'⟩ := clock_zero hrst (by rw [apStartPulse, hs]; rfl) hc
  rw [hf] at hp'
  have hno : k.starts i = false := by
    rw [starts, Port.wHs, hw]
    rfl
  refine ⟨?_, hc', hf', hp'⟩
  rw [apStart_clock hrst, hno, hp, hfile]
  rfl

/-- **What an edge makes of a stage.** -/
theorem at_clock {st : Stage} (h : k.At st) (hrst : i.areset = false) : (k.clock i).At (k.next i st) := by
  cases st with
  | idle => exact idle_clock h hrst
  | armed => exact armed_clock h hrst
  | running left => exact running_clock h hrst
  | done => exact done_clock h hrst
  | latched => exact latched_clock h hrst
  | echo => exact echo_clock h hrst

/-- A reset leaves `ap_done` as it is. -/
theorem at_reset (k : Ipcore) (hrst : i.areset = true) :
    (k.clock i).At (if k.finishPulse then .echo else .idle) := by
  have hport : (k.clock i).port.file = .reset ∧ (k.clock i).port.wstate = .wrreset := by
    simp [clock, Port.clock, hrst]
  have hcount : (k.clock i).countDown = 0 ∧ (k.clock i).finishExperiment = true ∧
      (k.clock i).finishPulse = k.finishPulse := by
    simp [clock, hrst]
  obtain ⟨hc, hf, hp⟩ := hcount
  cases hpulse : k.finishPulse with
  | true => exact ⟨hport, hc, hf, hp.trans hpulse⟩
  | false => exact ⟨congrArg File.intApStart hport.1, hc, hf, hp.trans hpulse⟩

/-- **Every state is at a stage**, with resets at any edges. -/
theorem at_run (w : BitVec 7) (r : BitVec 32) (startR pulse : Bool) (is : List PortIn) :
    ∃ st, (run clock (reset w r startR pulse) is).At st := by
  refine run_all (P := fun k : Ipcore => ∃ st, k.At st) (fun k i h => ?_) ?_ is
  · obtain ⟨st, hst⟩ := h
    cases hrst : i.areset with
    | false => exact ⟨_, at_clock hst hrst⟩
    | true => exact ⟨_, at_reset k hrst⟩
  · cases pulse with
    | false => exact ⟨.idle, rfl, rfl, rfl, rfl⟩
    | true => exact ⟨.echo, ⟨rfl, rfl⟩, rfl, rfl, rfl⟩

variable {st : Stage}

theorem at_armed (h : k.At st) (hpulse : k.apStartPulse = true) : k.At .armed := by
  obtain ⟨hs, hsr⟩ := (Bool.and_eq_true ..).mp hpulse
  rw [Bool.not_eq_true'] at hsr
  cases st with
  | armed => exact h
  | idle => exact absurd (h.1.symm.trans hs) Bool.false_ne_true
  | echo => exact absurd ((congrArg File.intApStart h.1.1).symm.trans hs) Bool.false_ne_true
  | running left => exact absurd (hsr.symm.trans h.1.2) Bool.false_ne_true
  | done => exact absurd (hsr.symm.trans h.1.2) Bool.false_ne_true
  | latched => exact absurd (hsr.symm.trans h.1.2) Bool.false_ne_true

theorem at_done (h : k.At st) (hp : k.finishPulse = true) (hs : k.apStart = true) : k.At .done := by
  cases st with
  | done => exact h
  | echo => exact absurd ((congrArg File.intApStart h.1.1).symm.trans hs) Bool.false_ne_true
  | idle => exact absurd (h.2.2.2.symm.trans hp) Bool.false_ne_true
  | armed => exact absurd (h.2.2.2.symm.trans hp) Bool.false_ne_true
  | running left => exact absurd (h.2.2.2.symm.trans hp) Bool.false_ne_true
  | latched => exact absurd (h.2.2.2.symm.trans hp) Bool.false_ne_true

/-! ## 3. The length of a run -/

/-- The stage `n` edges after `ap_start` has risen, with `r` for `runForCycles`. -/
def during (r : BitVec 64) : Nat → Stage
  | 0 => .armed
  | n + 1 => if n ≤ r.toNat then .running (BitVec.ofNat 64 (r.toNat - n)) else .done

/-- **Run**: the host has no part in it. -/
theorem at_during (h : k.At .armed) (js : List PortIn) (hrst : ∀ j ∈ js, j.areset = false)
    (hlen : js.length ≤ k.port.file.intRunForCycles.toNat + 2) :
    (run clock k js).At (during k.port.file.intRunForCycles js.length) := by
  generalize hr : k.port.file.intRunForCycles = r at hlen ⊢
  induction js using List.reverseRecOn with
  | nil => exact h
  | append_singleton js j ih =>
      rw [List.length_append, List.length_singleton] at hlen ⊢
      have hbefore := ih (fun j hj => hrst j (List.mem_append_left _ hj)) (by omega)
      have hj : j.areset = false := hrst j (List.mem_append_right _ (List.mem_singleton_self j))
      rw [run_append, run_cons, run_nil]
      cases hn : js.length with
      | zero =>
          rw [List.length_eq_zero_iff.mp hn, during, if_pos (Nat.zero_le _), Nat.sub_zero, ← hr,
            BitVec.ofNat_toNat, BitVec.setWidth_eq]
          exact armed_clock h hj
      | succ m =>
          have hm : m ≤ r.toNat := by omega
          have hlt := r.isLt
          rw [hn, during, if_pos hm] at hbefore
          have hstep := running_clock (i := j) hbefore hj
          rw [during]
          by_cases hend : m = r.toNat
          · rw [if_neg (by omega)]
            rwa [if_pos (by rw [hend, Nat.sub_self]; rfl)] at hstep
          · have hne : BitVec.ofNat 64 (r.toNat - m) ≠ 0 := by
              intro h0
              have h0' := congrArg BitVec.toNat h0
              rw [BitVec.toNat_ofNat, Nat.mod_eq_of_lt (by omega)] at h0'
              simp at h0'
              omega
            have hpred : BitVec.ofNat 64 (r.toNat - m) - 1 = BitVec.ofNat 64 (r.toNat - (m + 1)) := by
              refine BitVec.eq_of_toNat_eq ?_
              rw [BitVec.toNat_sub_of_le, BitVec.toNat_ofNat, BitVec.toNat_ofNat, Nat.mod_eq_of_lt (by omega),
                Nat.mod_eq_of_lt (by omega)]
              · simp
                omega
              · rw [BitVec.le_def, BitVec.toNat_ofNat, Nat.mod_eq_of_lt (by omega)]
                simp
                omega
            rw [if_neg hne, hpred] at hstep
            rwa [if_pos (by omega)]

end Ipcore

/-- **A run takes `runForCycles + 2` edges**, by the value the register has when `ap_start` has risen, in
    every run, resets before it included: whatever the host reads and writes meanwhile, `ap_done` is high
    after these edges and not before, and `ap_idle` is low in between. -/
theorem experiment_length (w : BitVec 7) (r : BitVec 32) (startR pulse : Bool) (is js : List PortIn) :
    let k := run Ipcore.clock (.reset w r startR pulse) is
    let cycles := k.port.file.intRunForCycles.toNat
    k.apStartPulse = true → (∀ j ∈ js, j.areset = false) → js.length ≤ cycles + 2 →
      (run Ipcore.clock k js).finishPulse = decide (js.length = cycles + 2) ∧
        (run Ipcore.clock k js).finishExperiment = decide (js.length = 0 ∨ js.length = cycles + 2) := by
  intro k cycles hpulse hrst hlen
  obtain ⟨st, hst⟩ : ∃ st, k.At st := Ipcore.at_run w r startR pulse is
  have hat := Ipcore.at_during (Ipcore.at_armed hst hpulse) js hrst hlen
  cases hn : js.length with
  | zero =>
      rw [hn] at hat
      exact ⟨hat.2.2.2, hat.2.2.1⟩
  | succ m =>
      rw [hn, Ipcore.during] at hat
      rw [hn] at hlen
      by_cases hm : m ≤ cycles
      · rw [if_pos hm] at hat
        exact ⟨hat.2.2.2.trans (decide_eq_false (by omega)).symm,
          hat.2.2.1.trans (decide_eq_false (by omega)).symm⟩
      · rw [if_neg hm] at hat
        exact ⟨hat.2.2.2.trans (decide_eq_true (by omega)).symm, hat.2.2.1.trans (decide_eq_true (by omega)).symm⟩

/-- The host writes a word: address, data, response. -/
def hostWrites (addr : BitVec 12) (data : BitVec 32) : List PortIn :=
  [⟨false, some addr, none, true, none, true⟩, ⟨false, none, some (data, 0xf), true, none, true⟩,
    ⟨false, none, none, true, none, true⟩]

/-- The host is silent. -/
def quiet : PortIn := ⟨false, none, none, true, none, true⟩

/-- `runForCycles` is 3, and `ap_start` has risen; the response of the write is still to come. -/
def startThree (ctrl : BitVec 32) : List PortIn :=
  quiet :: (hostWrites 0x10 3 ++ (hostWrites 0x00 ctrl).take 2)

theorem experiment_length_three :
    (run Ipcore.clock (.reset 0 0 false false) (startThree 1)).apStartPulse = true ∧
      (run Ipcore.clock (run Ipcore.clock (.reset 0 0 false false) (startThree 1))
        (hostWrites 0x10 9 ++ [quiet, quiet])).finishPulse = true :=
  have hpulse : (run Ipcore.clock (.reset 0 0 false false) (startThree 1)).apStartPulse = true := by
    decide +kernel
  have hcycles : (run Ipcore.clock (.reset 0 0 false false) (startThree 1)).port.file.intRunForCycles.toNat = 3 := by
    decide +kernel
  ⟨hpulse, by
    have h := experiment_length 0 0 false false (startThree 1) (hostWrites 0x10 9 ++ [quiet, quiet]) hpulse
      (by decide) (by rw [hcycles]; decide)
    rw [hcycles] at h
    exact h.1⟩

/-! ## 4. The end of a run -/

/-- **`ap_start` is cleared at the edge of `ap_ready`, or never.** If `auto_restart` is set at that edge, or
    the host writes a one to `ap_start`, the bit stays high, so that it rises no more: without a reset no
    run follows, whatever the host writes, and `ap_done` is never high again. Else it is low and stays so
    until the host writes a one, at whatever edge, which starts a run. -/
theorem start_latched (w : BitVec 7) (r : BitVec 32) (startR pulse : Bool) (is js : List PortIn) (i : PortIn) :
    let k := run Ipcore.clock (.reset w r startR pulse) is
    let k' := run Ipcore.clock (k.clock i) js
    k.finishPulse = true → k.apStart = true → i.areset = false → (∀ j ∈ js, j.areset = false) →
      if k.starts i || k.port.file.intAutoRestart then
        k'.apStart = true ∧ k'.apStartPulse = false ∧ k'.finishPulse = false
      else Meets Ipcore.clock (fun k j => k.starts j = false) (k.clock i) js →
        k'.apStart = false ∧ k'.finishPulse = false ∧
          ∀ j, j.areset = false → (k'.clock j).apStartPulse = k'.starts j := by
  intro k k' hp hs hi hrst
  obtain ⟨st, hst⟩ : ∃ st, k.At st := Ipcore.at_run w r startR pulse is
  have hend := Ipcore.done_clock (Ipcore.at_done hst hp hs) hi
  split
  · next hgo =>
      rw [if_pos hgo] at hend
      have hrun : k'.At .latched :=
        run_meets (P := fun k : Ipcore => k.At .latched)
          (fun _ j h (hj : j.areset = false) => Ipcore.latched_clock h hj) hend js (Meets.of_mem hrst)
      exact ⟨hrun.1.1, Ipcore.apStartPulse_low hrun.1.2, hrun.2.2.2⟩
  · next hgo =>
      rw [if_neg hgo] at hend
      intro hno
      have hrun : k'.At .idle := by
        refine run_meets (P := fun k : Ipcore => k.At .idle) (fun k j h hj => ?_) hend js
          ((Meets.of_mem hrst).and hno)
        have hnext := Ipcore.idle_clock h hj.1
        rwa [hj.2, if_neg Bool.false_ne_true] at hnext
      refine ⟨hrun.1, hrun.2.2.2, fun j hj => ?_⟩
      have hnext := Ipcore.idle_clock hrun hj
      cases hw : k'.starts j with
      | true =>
          rw [hw, if_pos rfl] at hnext
          rw [Ipcore.apStartPulse, hnext.1.1, hnext.1.2]
          rfl
      | false =>
          rw [hw, if_neg Bool.false_ne_true] at hnext
          rw [Ipcore.apStartPulse, hnext.1]
          rfl

/-- `auto_restart`: the first run is the last. -/
theorem start_latched_auto_restart :
    let k := run Ipcore.clock (.reset 0 0 false false) (startThree 0x81 ++ List.replicate 5 quiet)
    let k' := run Ipcore.clock (k.clock quiet) (hostWrites 0x00 1 ++ List.replicate 20 quiet)
    k'.apStart = true ∧ k'.apStartPulse = false ∧ k'.finishPulse = false := by
  intro k k'
  have h := start_latched 0 0 false false (startThree 0x81 ++ List.replicate 5 quiet)
    (hostWrites 0x00 1 ++ List.replicate 20 quiet) quiet (by decide +kernel) (by decide +kernel) rfl (by decide)
  rwa [if_pos (by decide +kernel)] at h

/-- **A reset leaves `ap_done` as it is.** After a reset of any number of edges the control port has a run
    to report if and only if the reset began while `ap_done` was high. -/
theorem reset_reports (w : BitVec 7) (r : BitVec 32) (startR pulse : Bool) (is rs : List PortIn) (i : PortIn)
    (hne : rs ≠ []) (hrs : ∀ j ∈ rs, j.areset = true) (hi : i.areset = false) :
    (run Ipcore.clock (.reset w r startR pulse) (is ++ rs ++ [i])).port.file.intApDone =
      (run Ipcore.clock (.reset w r startR pulse) is).finishPulse := by
  rw [run_append, run_append, run_cons, run_nil]
  generalize run Ipcore.clock (.reset w r startR pulse) is = k
  have hrun : (run Ipcore.clock k rs).finishPulse = k.finishPulse ∧
      (run Ipcore.clock k rs).port.file = .reset := by
    obtain ⟨rs, j, rfl⟩ := List.eq_nil_or_concat rs |>.resolve_left hne
    rw [List.concat_eq_append] at hrs ⊢
    have hpulse : (run Ipcore.clock k rs).finishPulse = k.finishPulse := by
      refine run_meets (P := fun l : Ipcore => l.finishPulse = k.finishPulse)
        (fun l j h (hj : j.areset = true) => ?_) rfl rs (Meets.of_mem fun j hj => hrs j (List.mem_append_left _ hj))
      rw [Ipcore.clock, hj]
      exact h
    have hj : j.areset = true := hrs j (List.mem_append_right _ (List.mem_singleton_self j))
    rw [run_append, run_cons, run_nil]
    constructor
    · rw [Ipcore.clock, hj]
      exact hpulse
    · simp [Ipcore.clock, Port.clock, hj]
  rw [← hrun.1]
  show (if i.areset then File.reset else (run Ipcore.clock k rs).port.file.edge _ _ _).intApDone = _
  rw [hi, if_neg Bool.false_ne_true, hrun.2, File.edge, Ipcore.status]
  cases (run Ipcore.clock k rs).finishPulse <;> simp [File.reset]

theorem reset_reports_three :
    (run Ipcore.clock (.reset 0 0 false false) (startThree 1 ++ List.replicate 5 quiet ++
      List.replicate 2 { quiet with areset := true } ++ [quiet])).port.file.intApDone =
      (run Ipcore.clock (.reset 0 0 false false) (startThree 1 ++ List.replicate 5 quiet)).finishPulse :=
  reset_reports 0 0 false false (startThree 1 ++ List.replicate 5 quiet) (List.replicate 2 { quiet with areset := true })
    quiet (by decide) (by decide) rfl

/-! ## 5. What is reported -/

/-- The kernel with the number of runs started and ended, and of reads of `ADDR_AP_CTRL` that return
    `ap_done`. -/
structure RunTally where
  kernel : Ipcore
  started : Nat
  ended : Nat
  reported : Nat

namespace RunTally

def init (w : BitVec 7) (r : BitVec 32) (startR : Bool) : RunTally := ⟨.reset w r startR false, 0, 0, 0⟩

def clock (t : RunTally) (i : PortIn) : RunTally where
  kernel := t.kernel.clock i
  started := t.started + if t.kernel.apStartPulse then 1 else 0
  ended := t.ended + if t.kernel.finishPulse then 1 else 0
  reported := t.reported + if t.kernel.port.arHs i = some addrApCtrl ∧ t.kernel.port.file.intApDone = true then 1 else 0

/-- The runs that have started and are not ended. -/
def underWay : Stage → Nat
  | .running _ => 1
  | .done => 1
  | _ => 0

/-- A started run has ended or is under way; what has ended is reported, still to be reported, or was
    overtaken. -/
structure Counted (t : RunTally) : Prop where
  stage : ∃ st, t.kernel.At st ∧ st ≠ .echo ∧ t.started = t.ended + underWay st
  reports : t.reported + (if t.kernel.port.file.intApDone then 1 else 0) ≤ t.ended

theorem counted_init (w : BitVec 7) (r : BitVec 32) (startR : Bool) : (init w r startR).Counted :=
  ⟨⟨.idle, ⟨rfl, rfl, rfl, rfl⟩, Stage.noConfusion, rfl⟩, Nat.le_refl _⟩

theorem next_ne_echo (k : Ipcore) (i : PortIn) (st : Stage) : k.next i st ≠ .echo := by
  cases st with
  | idle => cases hgo : k.starts i <;> simp [Ipcore.next, hgo]
  | armed => simp [Ipcore.next]
  | running left =>
      show (if left = 0 then Stage.done else Stage.running (left - 1)) ≠ Stage.echo
      split <;> simp
  | done => cases hgo : k.starts i || k.port.file.intAutoRestart <;> simp [Ipcore.next, hgo]
  | latched => simp [Ipcore.next]
  | echo => simp [Ipcore.next]

/-- `ap_start` rises into a run, and `ap_done` ends one. -/
theorem underWay_next {k : Ipcore} {st : Stage} (h : k.At st) (hne : st ≠ .echo) (i : PortIn) :
    underWay st + (if k.apStartPulse then 1 else 0) =
      underWay (k.next i st) + if k.finishPulse then 1 else 0 := by
  cases st with
  | idle =>
      obtain ⟨hs, -, -, hp⟩ := h
      rw [hp, Ipcore.apStartPulse, hs]
      cases hgo : k.starts i <;> simp [Ipcore.next, hgo, underWay]
  | armed =>
      obtain ⟨⟨hs, hsr⟩, -, -, hp⟩ := h
      rw [hp, Ipcore.apStartPulse, hs, hsr]
      rfl
  | running left =>
      obtain ⟨⟨-, hsr⟩, -, -, hp⟩ := h
      rw [hp, Ipcore.apStartPulse_low hsr]
      show 1 = underWay (if left = 0 then Stage.done else Stage.running (left - 1))
      split <;> rfl
  | done =>
      obtain ⟨⟨-, hsr⟩, -, -, hp⟩ := h
      rw [hp, Ipcore.apStartPulse_low hsr]
      cases hgo : k.starts i || k.port.file.intAutoRestart <;> simp [Ipcore.next, hgo, underWay]
  | latched =>
      obtain ⟨⟨-, hsr⟩, -, -, hp⟩ := h
      rw [hp, Ipcore.apStartPulse_low hsr]
      rfl
  | echo => exact absurd rfl hne

theorem counted_clock {t : RunTally} (h : t.Counted) {i : PortIn} (hrst : i.areset = false) :
    (t.clock i).Counted := by
  obtain ⟨⟨st, hat, hne, hcount⟩, hreports⟩ := h
  refine ⟨⟨_, Ipcore.at_clock hat hrst, next_ne_echo t.kernel i st, ?_⟩, ?_⟩
  · have hnext := underWay_next hat hne i
    show t.started + (if t.kernel.apStartPulse then 1 else 0) =
      t.ended + (if t.kernel.finishPulse then 1 else 0) + underWay (t.kernel.next i st)
    omega
  · have hdone : (t.clock i).kernel.port.file.intApDone =
        if t.kernel.finishPulse then true
        else if t.kernel.port.arHs i = some addrApCtrl then false else t.kernel.port.file.intApDone := by
      show (if i.areset then File.reset else t.kernel.port.file.edge _ _ _).intApDone = _
      rw [hrst]
      rfl
    rw [hdone]
    show t.reported + (if t.kernel.port.arHs i = some addrApCtrl ∧ t.kernel.port.file.intApDone = true then 1
      else 0) + _ ≤ t.ended + if t.kernel.finishPulse then 1 else 0
    generalize t.kernel.finishPulse = pulse
    generalize t.kernel.port.file.intApDone = done at hreports ⊢
    by_cases hr : t.kernel.port.arHs i = some addrApCtrl <;> cases pulse <;> cases done <;>
      simp [hr] at hreports ⊢ <;> omega

end RunTally

/-- **No run is reported twice**, and none that has not ended: in every run without a reset, the reads of
    `ADDR_AP_CTRL` that return `ap_done` are no more than the edges at which it was high, and these are as
    many as the runs started, but for one under way. -/
theorem experiments_counted (w : BitVec 7) (r : BitVec 32) (startR : Bool) (is : List PortIn)
    (hrst : ∀ i ∈ is, i.areset = false) :
    let t := run RunTally.clock (.init w r startR) is
    t.reported ≤ t.ended ∧ t.ended ≤ t.started ∧ t.started ≤ t.ended + 1 := by
  intro t
  have h : t.Counted := run_meets (P := RunTally.Counted)
    (fun _ i ht (hi : i.areset = false) => RunTally.counted_clock ht hi) (RunTally.counted_init w r startR) is (Meets.of_mem hrst)
  obtain ⟨⟨st, -, -, hcount⟩, hreports⟩ := h
  have hone : RunTally.underWay st ≤ 1 := by cases st <;> simp [RunTally.underWay]
  refine ⟨?_, ?_, ?_⟩ <;> omega

/-- The host reads `ADDR_AP_CTRL` behind the run. -/
theorem experiments_counted_three :
    let t := run RunTally.clock (.init 0 0 false) (startThree 1 ++ List.replicate 6 quiet ++
      [⟨false, none, none, true, some 0, true⟩])
    t.reported = 1 ∧ t.reported ≤ t.ended ∧ t.ended ≤ t.started ∧ t.started ≤ t.ended + 1 :=
  ⟨by decide +kernel, experiments_counted 0 0 false (startThree 1 ++ List.replicate 6 quiet ++
    [⟨false, none, none, true, some 0, true⟩]) (by decide)⟩

end Frac.Control
