/-
  File:      Frac/Reconf/Completion.lean
  Subject:   How a reconfiguration is answered: what the finishing edge records, and what the
             answer ERR_OK says about PRDONE.

  * `reconf_result_exact` -- ERR_ICAP exactly when PRERROR was high at some edge of the command,
    and the recorded slot, cycle count and decouple bits;
  * `DonePhase` -- the PRDONE latch before and after the last word (`donePhase_reachable`);
  * `ok_means_done_after_last` -- in runs without an early PRDONE, ERR_OK means PRDONE at or after
    the last word; `stale_done_answers_ok` -- an early PRDONE is enough for ERR_OK.
-/
import Frac.Reconf.Isolation

namespace Frac.Reconf

open Clocked

variable {slotCount : Nat}

/-! ## 1. The finishing edge -/

/-- **PRERROR is never missed and the result is exact.** At the edge that answers a
    reconfiguration, whatever came before: the command `h.cmd` that runs is answered ERR_ICAP
    exactly when PRERROR was high at an edge after its acceptance up to this one, else ERR_OK;
    its slot and the number of edges in between are recorded; its decouple bit, and no other,
    falls. -/
theorem reconf_result_exact {mem : Mem 33} {y : Sys slotCount}
    (hr : Reachable Sys.clock AnyInput (Sys.init slotCount mem) y)
    (hs : y.ctrl.state = .reconfWaitDone) {i : In} (hrst : i.rst = false)
    (hfin : (y.clock i).ctrl.state ≠ .reconfWaitDone) :
    ∃ h, y.hist = some h ∧ Executes slotCount h.cmd opReconfIcap ∧
      ((y.clock i).ctrl.answers .icap ↔ ∃ j ∈ h.edges ++ [i], j.icapPrErr = true) ∧
      ((y.clock i).ctrl.answers .icap ∨ (y.clock i).ctrl.answers .ok) ∧
      (y.clock i).ctrl.lastSlotId = cmdSlotId h.cmd ∧
      (y.clock i).ctrl.lastReconfCycles = BitVec.ofNat 64 h.edges.length ∧
      ∀ k : Fin slotCount,
        (k.val = (cmdSlotId h.cmd).toNat →
          y.ctrl.slotDecouple k = true ∧ (y.clock i).ctrl.slotDecouple k = false) ∧
        (k.val ≠ (cmdSlotId h.cmd).toNat →
          (y.clock i).ctrl.slotDecouple k = y.ctrl.slotDecouple k) := by
  obtain ⟨h, hh⟩ := hist_of_busy hr (by rw [hs]; decide)
  have hI := reconfInv_reachable hr hh (by rw [hs]; rfl)
  obtain ⟨s', hs', hm⟩ := clock_move y hrst
  rw [hs'] at hfin ⊢
  have herr : (i.icapPrErr || y.ctrl.icapPrErrSeen) = true ↔
      ∃ j ∈ h.edges ++ [i], j.icapPrErr = true := by
    rw [hI.errSeen]
    constructor
    · intro hor
      rcases Bool.or_eq_true_iff.mp hor with h1 | h1
      · exact ⟨i, by simp, h1⟩
      · obtain ⟨j, hj, h2⟩ := List.any_eq_true.mp h1
        exact ⟨j, by simp [hj], h2⟩
    · rintro ⟨j, hj, h1⟩
      rcases List.mem_append.mp hj with h2 | h2
      · exact Bool.or_eq_true_iff.mpr (Or.inr (List.any_eq_true.mpr ⟨j, h2, h1⟩))
      · rw [List.mem_singleton.mp h2] at h1
        rw [h1]; rfl
  cases hm
  case waitDone => exact absurd hs hfin
  case finish _ e he =>
    have hans : (finishReconf y.ctrl (latch y.ctrl i) e).answers e := startStatus_answers _ e
    refine ⟨h, hh, hI.executes, ?_, ?_, hI.slot, hI.cycles, fun k => ⟨fun hk => ?_, fun hk => ?_⟩⟩
    · rw [← herr]
      rcases he with ⟨h1, rfl⟩ | ⟨h1, -, rfl⟩
      · exact ⟨fun _ => h1, fun _ => hans⟩
      · refine ⟨fun hi => ?_, fun h2 => by rw [h1] at h2; cases h2⟩
        exact absurd (Err.line_injective (hans.2.symm.trans hi.2)) (by decide)
    · rcases he with ⟨-, rfl⟩ | ⟨-, -, rfl⟩
      · exact Or.inl hans
      · exact Or.inr hans
    · exact ⟨hI.decoupled k hk, if_pos (by rw [hI.slot]; exact hk)⟩
    · exact if_neg (by rw [hI.slot]; exact hk)
  all_goals simp_all

/-- One word for slot 1, its last edge the one before the answer; PRERROR is high for one edge
    while the word waits. -/
def errorEdges : List In :=
  offer (commandLine opReconfIcap 1 0x4000 4) ++
    [In.low, { In.low with arready := true }, { In.low with rvalid := true, rlast := true },
      { In.low with icapPrErr := true }, { In.low with icapTready := true }]

def errorSys : Sys 2 := run Sys.clock (Sys.init 2 fun _ => 0) errorEdges

theorem reconf_result_exact_error :
    (errorSys.clock In.low).ctrl.answers .icap ∧
      (errorSys.clock In.low).ctrl.lastReconfCycles = 5 := by
  have hr : Reachable Sys.clock AnyInput (Sys.init 2 fun _ => 0) errorSys :=
    Reachable.of_run errorEdges (Meets.of_forall (fun _ _ => trivial) _ _)
  obtain ⟨h, hh, -, hicap, -, -, hcycles, -⟩ := reconf_result_exact hr (by decide +kernel)
    (show In.low.rst = false from rfl) (by decide +kernel)
  have hcur : h = errorSys.current := by rw [Sys.current, hh]; rfl
  rw [hcur] at hicap hcycles
  exact ⟨hicap.mpr (by decide +kernel), hcycles.trans (by decide +kernel)⟩

/-! ## 2. PRDONE before and after the last word -/

/-- PRDONE is low while a bitstream is on its way: at every edge of a reconfiguration before the
    one that takes the word marked `tlast`. -/
def QuietDone (y : Sys slotCount) (i : In) : Prop :=
  y.ctrl.state.reconf = true → y.ctrl.state ≠ .reconfWaitDone →
    (y.ctrl.icapTvalid && i.icapTready && y.ctrl.icapTlast) = false → i.icapPrDone = false

instance (y : Sys slotCount) (i : In) : Decidable (QuietDone y i) :=
  inferInstanceAs (Decidable (_ → _ → _ → _))

/-- PRDONE was high at or after the edge that took the last word. -/
def Hist.doneAfterLast (h : Hist) : Prop := ∃ j ∈ h.afterLast, j.icapPrDone = true

instance (h : Hist) : Decidable h.doneAfterLast := inferInstanceAs (Decidable (∃ _ ∈ _, _))

/-- **Where the answer of a reconfiguration stands.** -/
inductive DonePhase (h : Hist) (s : Ctrl slotCount) : Prop where
  | before (hs : s.state = .reconfAddr ∨ s.state = .reconfData ∨ s.state = .reconfStream)
      (hw : h.words.any (·.2) = false) (hd : s.icapPrDoneSeen = false)
      (hl : s.state = .reconfStream → s.icapTlast = (s.icapWordsRemaining == 1))
  | after (hs : s.state = .reconfWaitDone) (hw : h.words.any (·.2) = true)
      (hd : s.icapPrDoneSeen = true → h.doneAfterLast)
  | answered (hs : s.state = .sendStatus ∨ s.state = .idle)
      (hok : s.mAxisTdata = Err.ok.code.setWidth 512 → h.doneAfterLast)

theorem doneAfterLast_next {h : Hist} {s : Ctrl slotCount} {i : In} (hd : h.doneAfterLast) :
    (h.next s i).doneAfterLast := by
  obtain ⟨j, hj, e⟩ := hd
  refine ⟨j, ?_, e⟩
  show j ∈ if _ then _ else _
  split
  · exact List.mem_append_left _ hj
  · exact hj

theorem doneAfterLast_now {h : Hist} {s : Ctrl slotCount} {i : In} (hb : s.state.busy = true)
    (hl : h.lastTaken s i = true) (hi : i.icapPrDone = true) : (h.next s i).doneAfterLast := by
  refine ⟨i, ?_, hi⟩
  show i ∈ if _ then _ else _
  rw [if_pos (by rw [hb, hl]; rfl)]
  exact List.mem_append_right _ (List.mem_singleton_self i)

theorem latch_prDoneSeen {s : Ctrl slotCount} {i : In} (h : (latch s i).icapPrDoneSeen = true) :
    i.icapPrDone = true ∨ s.icapPrDoneSeen = true := by
  unfold latch at h
  simp only at h
  split at h
  · rename_i h1
    exact Or.inl (Bool.and_eq_true_iff.mp h1).2
  · exact Or.inr h

theorem next_words_any (h : Hist) (s : Ctrl slotCount) (i : In) :
    (h.next s i).words.any (·.2) = h.lastTaken s i := by
  cases hv : (s.icapTvalid && i.icapTready) with
  | true => rw [next_words_take hv, Hist.lastTaken, hv]; simp
  | false => rw [next_words_hold hv, Hist.lastTaken, hv]; simp

/-- Before the last word, the moves that several states share are those of a reconfiguration. -/
theorem addr_of_before {st : St} {p q r : Prop}
    (hs : st = .reconfAddr ∨ st = .reconfData ∨ st = .reconfStream)
    (ho : st = .readAddr0 ∧ p ∨ st = .readAddr1 ∧ q ∨ st = .reconfAddr ∧ r) :
    st = .reconfAddr ∧ r := by
  rcases hs with e | e | e <;> simp_all

theorem data_of_before {st : St} (hs : st = .reconfAddr ∨ st = .reconfData ∨ st = .reconfStream)
    (ho : st = .readData0 ∨ st = .readData1 ∨ st = .reconfData) : st = .reconfData := by
  rcases hs with e | e | e <;> simp_all

section Step

variable {h : Hist} {y : Sys slotCount} {i : In} (hrst : i.rst = false)
include hrst

theorem donePhase_before (hsg : Signals y.ctrl) (hok : QuietDone y i)
    (hs : y.ctrl.state = .reconfAddr ∨ y.ctrl.state = .reconfData ∨ y.ctrl.state = .reconfStream)
    (hw : h.words.any (·.2) = false) (hd : y.ctrl.icapPrDoneSeen = false)
    (hl : y.ctrl.state = .reconfStream →
      y.ctrl.icapTlast = (y.ctrl.icapWordsRemaining == 1)) :
    DonePhase (h.next y.ctrl i) (y.clock i).ctrl := by
  have hrec : y.ctrl.state.reconf = true := by rcases hs with e | e | e <;> rw [e] <;> rfl
  have hnw : y.ctrl.state ≠ .reconfWaitDone := by rcases hs with e | e | e <;> rw [e] <;> decide
  -- an edge that does not take the last word leaves the latch down and marks nothing as last
  have hquiet : (y.ctrl.icapTvalid && i.icapTready && y.ctrl.icapTlast) = false →
      (h.next y.ctrl i).words.any (·.2) = false ∧ (latch y.ctrl i).icapPrDoneSeen = false := by
    intro hn
    refine ⟨by rw [next_words_any, Hist.lastTaken, hw, hn]; rfl, ?_⟩
    refine Bool.eq_false_iff.mpr fun hseen => ?_
    rcases latch_prDoneSeen hseen with h1 | h1
    · rw [hok hrec hnw hn] at h1; cases h1
    · rw [hd] at h1; cases h1
  have hidle : y.ctrl.state ≠ .reconfStream →
      (y.ctrl.icapTvalid && i.icapTready && y.ctrl.icapTlast) = false := by
    intro hn
    rw [hsg.icapTvalid, decide_eq_false hn]
    rfl
  obtain ⟨s', hs', hm⟩ := clock_move y hrst
  rw [hs']
  cases hm
  case holdAr addr ho he =>
    have hst := (addr_of_before hs ho).1
    obtain ⟨h1, h2⟩ := hquiet (hidle (by rw [hst]; decide))
    exact .before (Or.inl hst) h1 h2 fun e => absurd (hst.symm.trans e) (by decide)
  case takeAr addr next ho he =>
    obtain ⟨hst, -, hnext⟩ := addr_of_before hs ho
    obtain ⟨h1, h2⟩ := hquiet (hidle (by rw [hst]; decide))
    exact .before (Or.inr (Or.inl hnext)) h1 h2 fun e => absurd (hnext.symm.trans e) (by decide)
  case holdR ho he =>
    have hst := data_of_before hs ho
    obtain ⟨h1, h2⟩ := hquiet (hidle (by rw [hst]; decide))
    exact .before (Or.inr (Or.inl hst)) h1 h2 fun e => absurd (hst.symm.trans e) (by decide)
  case errR ho he e hbad =>
    refine .answered (Or.inl rfl) fun hline => ?_
    have : e = .ok := Err.line_injective hline
    rcases hbad with ⟨-, rfl⟩ | ⟨-, -, rfl⟩ <;> cases this
  case takeBeat ho he hr hl' =>
    obtain ⟨h1, h2⟩ := hquiet (hidle (by rw [ho]; decide))
    exact .before (Or.inr (Or.inr rfl)) h1 h2 fun _ => rfl
  case holdWord ho he =>
    obtain ⟨h1, h2⟩ := hquiet (by rw [he]; rfl)
    exact .before hs h1 h2 hl
  case lastWord ho he h1 =>
    have hlast : h.lastTaken y.ctrl i = true := by
      rw [Hist.lastTaken, he, hl ho, h1]; simp
    refine .after rfl (by rw [next_words_any, hlast]) fun hseen => ?_
    rcases latch_prDoneSeen hseen with h2 | h2
    · exact doneAfterLast_now (St.busy_of_reconf hrec) hlast h2
    · rw [hd] at h2; cases h2
  case beatEnd ho he h1 h7 =>
    obtain ⟨h2, h3⟩ := hquiet (by rw [hl ho, beq_eq_false_iff_ne.mpr h1, Bool.and_false])
    exact .before (Or.inl rfl) h2 h3 fun e => by cases e
  case nextWord ho he h1 h7 =>
    obtain ⟨h2, h3⟩ := hquiet (by rw [hl ho, beq_eq_false_iff_ne.mpr h1, Bool.and_false])
    exact .before hs h2 h3 fun _ => words_two_beq y.ctrl.icapWordsRemaining
  -- the other moves start in other states
  all_goals
    clear hsg hok hquiet hidle hl
    rcases hs with e | e | e <;> simp_all

theorem donePhase_after (hs : y.ctrl.state = .reconfWaitDone) (hw : h.words.any (·.2) = true)
    (hd : y.ctrl.icapPrDoneSeen = true → h.doneAfterLast) :
    DonePhase (h.next y.ctrl i) (y.clock i).ctrl := by
  have hlast : h.lastTaken y.ctrl i = true := by rw [Hist.lastTaken, hw]; rfl
  have hdone : i.icapPrDone = true ∨ y.ctrl.icapPrDoneSeen = true →
      (h.next y.ctrl i).doneAfterLast := by
    rintro (h1 | h1)
    · exact doneAfterLast_now (by rw [hs]; rfl) hlast h1
    · exact doneAfterLast_next (hd h1)
  obtain ⟨s', hs', hm⟩ := clock_move y hrst
  rw [hs']
  cases hm
  case waitDone =>
    exact .after hs (by rw [next_words_any, hlast]) fun hseen => hdone (latch_prDoneSeen hseen)
  case finish _ e he =>
    refine .answered (Or.inl rfl) fun hline => ?_
    have hok : e = .ok := Err.line_injective hline
    rcases he with ⟨-, rfl⟩ | ⟨-, h1, -⟩
    · cases hok
    · exact hdone (Bool.or_eq_true_iff.mp h1)
  all_goals simp_all

theorem donePhase_answered (hacc : accepts y.ctrl i = false)
    (hs : y.ctrl.state = .sendStatus ∨ y.ctrl.state = .idle)
    (hok : y.ctrl.mAxisTdata = Err.ok.code.setWidth 512 → h.doneAfterLast) :
    DonePhase (h.next y.ctrl i) (y.clock i).ctrl := by
  obtain ⟨s', hs', hm⟩ := clock_move y hrst
  rw [hs']
  cases hm
  case idleHold ho he => exact .answered (Or.inr ho) fun e => doneAfterLast_next (hok e)
  case holdSend ho he => exact .answered hs fun e => doneAfterLast_next (hok e)
  case takeSend ho he => exact .answered (Or.inr rfl) fun e => doneAfterLast_next (hok e)
  all_goals rcases hs with e | e <;> simp_all [accepts]

end Step

theorem donePhase_reachable {mem : Mem 33} {y : Sys slotCount}
    (hr : Reachable Sys.clock QuietDone (Sys.init slotCount mem) y) {h : Hist}
    (hh : y.hist = some h) (hx : Executes slotCount h.cmd opReconfIcap) : DonePhase h y.ctrl := by
  refine hist_invariant
    (P := fun h y => Executes slotCount h.cmd opReconfIcap → DonePhase h y.ctrl)
    signals_reset (fun _ e => by cases e) ?_ ?_ hr hh hx
  · intro y i _ hrst ha hx
    rcases clock_executes hrst ha hx with ⟨e, -⟩ | ⟨e, -⟩ | ⟨-, hc⟩
    · exact absurd e (by decide)
    · exact absurd e (by decide)
    · rw [hc]
      exact .before (Or.inl rfl) rfl rfl fun e => by cases e
  · intro y i h hsg hok hrst ha ih hx
    cases ih hx with
    | before hs hw hd hl => exact donePhase_before hrst hsg hok hs hw hd hl
    | after hs hw hd => exact donePhase_after hrst hs hw hd
    | answered hs hd => exact donePhase_answered hrst ha hs hd

/-- **In every run without an early PRDONE, ERR_OK means that the configuration port reported
    completion of this bitstream**: PRDONE was high at an edge at or after the one that took the
    command's last word. -/
theorem ok_means_done_after_last {mem : Mem 33} {y : Sys slotCount}
    (hr : Reachable Sys.clock QuietDone (Sys.init slotCount mem) y) {h : Hist}
    (hh : y.hist = some h) (hx : Executes slotCount h.cmd opReconfIcap)
    (hok : y.ctrl.answers .ok) : h.doneAfterLast := by
  have hsends := (signals_reachable hr).mAxisTvalid.symm.trans hok.1
  cases donePhase_reachable hr hh hx with
  | before hs => rcases hs with e | e | e <;> rw [e] at hsends <;> cases hsends
  | after hs => rw [hs] at hsends; cases hsends
  | answered _ hd => exact hd hok.2

/-- One word for slot 1 up to the answer, PRDONE high two edges after the word. -/
def doneEdges : List In :=
  offer (commandLine opReconfIcap 1 0x4000 4) ++
    [In.low, { In.low with arready := true }, { In.low with rvalid := true, rlast := true },
      { In.low with icapTready := true }, In.low, { In.low with icapPrDone := true }]

theorem ok_means_done_one_word :
    (run Sys.clock (Sys.init 2 fun _ => 0) doneEdges).current.doneAfterLast := by
  have hr : Reachable Sys.clock QuietDone (Sys.init 2 fun _ => 0)
      (run Sys.clock (Sys.init 2 fun _ => 0) doneEdges) :=
    Reachable.of_run doneEdges (by decide +kernel)
  exact ok_means_done_after_last hr (hist_current (by decide +kernel))
    (by constructor <;> decide +kernel) (by decide +kernel)

/-- The same word, but PRDONE is high while the address is presented and low ever after. -/
def staleEdges : List In :=
  offer (commandLine opReconfIcap 1 0x4000 4) ++
    [{ In.low with icapPrDone := true }, { In.low with arready := true },
      { In.low with rvalid := true, rlast := true }, { In.low with icapTready := true }, In.low]

/-- **An early PRDONE is enough for ERR_OK**: the word is taken with PRDONE low, PRDONE stays low,
    and the command is answered ERR_OK. -/
theorem stale_done_answers_ok :
    ¬ ∀ y : Sys 2, Reachable Sys.clock AnyInput (Sys.init 2 fun _ => 0) y → ∀ h, y.hist = some h →
      Executes 2 h.cmd opReconfIcap → y.ctrl.answers .ok → h.doneAfterLast := by
  intro hall
  have hdone := hall (run Sys.clock (Sys.init 2 fun _ => 0) staleEdges)
    (Reachable.of_run staleEdges (Meets.of_forall (fun _ _ => trivial) _ _))
    _ (hist_current (by decide +kernel)) (by constructor <;> decide +kernel) (by decide +kernel)
  exact absurd hdone (by decide +kernel)

end Frac.Reconf
