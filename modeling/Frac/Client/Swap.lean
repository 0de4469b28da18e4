/-
  File:      Frac/Client/Swap.lean
  Subject:   The verdict of `sw/swap/main.go`, which reprograms a slot step by step and probes it after
             each step, against the two modules it swaps.

  The bitstreams, the staging of them and what is printed on the way are left out; a step that reports
  an error ends the tool without a verdict and is left out too.

  * `Swap.tally`, `Swap.verdict` -- the loop over the program and the `switch` behind it;
  * `tally_told` -- **what the four counters say about the responses**;
  * `probeSlot` -- the line the tool gets from a slot (`probe_answers` -- **it is what the device
    sends**); `probe_byte` -- its first byte is `0xff` for both modules;
  * `swap_verdict` -- **the verdict depends on the program only, not on what it did**.
-/
import Frac.Client.AppLoop

namespace Frac.Client.Swap

open Bits Clocked Reassembly Slots

/-! ## 1. The tool -/

def slotCount : Nat := 2

/-- Byte 0 of a header-only probe response, per module, as the tool has them. -/
def orSlotByte : BitVec 8 := 0xff
def patternSlotByte : BitVec 8 := 0x01

def buildHeader (totalSize : Nat) (workloadID : BitVec 16) (requestFlags : BitVec 8) :
    List (BitVec 8) :=
  App.buildHeader totalSize workloadID requestFlags defaultTopConfig

def buildWorkloadRequest (workloadID : BitVec 16) : List (BitVec 8) :=
  buildHeader requestLineBytes workloadID reqFlagSingle

/-- What `classify` returns: `or_slot`, `pattern_slot` or `unknown(0x%02x)`. -/
inductive Answer where
  | orSlot
  | patternSlot
  | unknown (byte : BitVec 8)
  deriving DecidableEq

def classify (response : List (BitVec 8)) : Answer :=
  let byte := response.getD 0 0
  if byte = orSlotByte then .orSlot
  else if byte = patternSlotByte then .patternSlot
  else .unknown byte

/-- An image, as far as the loop reads it. -/
structure Image where
  name : String
  expect : BitVec 8
  deriving DecidableEq

/-- `orImage` and `patternImage`. -/
def image : EchoSlot → Image
  | .or => ⟨"or_slot", orSlotByte⟩
  | .pattern => ⟨"pattern_slot", patternSlotByte⟩

/-- The variables of the loop. -/
structure Tally where
  previous : Answer
  phases : Nat
  matched : Nat
  transitions : Nat
  firstLanded : Int
  failedAfterLand : Bool
  deriving DecidableEq

/-- Before the first step. -/
def Tally.start (baseline : List (BitVec 8)) : Tally := ⟨classify baseline, 0, 0, 0, -1, false⟩

/-- One step, from the response of its probe on. -/
def Tally.next (t : Tally) (step : Nat) (img : Image) (response : List (BitVec 8)) : Tally :=
  let got := classify response
  let ok := response.getD 0 0 == img.expect
  let changed := got != t.previous
  let firstLanded := if ok && changed && decide (t.firstLanded < 0) then (step : Int) else t.firstLanded
  { previous := got
    phases := t.phases + 1
    matched := if ok then t.matched + 1 else t.matched
    transitions := if changed then t.transitions + 1 else t.transitions
    firstLanded := firstLanded
    failedAfterLand := t.failedAfterLand || (!ok && decide (0 ≤ firstLanded)) }

/-- The loop over the steps, each an image and the response to its probe. -/
def tally (baseline : List (BitVec 8)) (steps : List (Image × List (BitVec 8))) : Tally :=
  steps.zipIdx.foldl (fun t x => t.next x.2 x.1.1 x.1.2) (Tally.start baseline)

inductive Verdict where
  | PASS
  | FAIL
  | PARTIAL
  | INCONCLUSIVE
  deriving DecidableEq

def verdict (t : Tally) : Verdict :=
  if t.matched = t.phases then .PASS
  else if t.transitions = 0 ∧ t.firstLanded < 0 then .FAIL
  else if t.failedAfterLand then .PARTIAL
  else .INCONCLUSIVE

/-! ## 2. What the counters say -/

section Told

variable (baseline : List (BitVec 8)) (steps : List (Image × List (BitVec 8)))

/-- The probe of a step matched its image. -/
def Matched (x : Image × List (BitVec 8)) : Prop := x.2.getD 0 0 = x.1.expect

instance (x : Image × List (BitVec 8)) : Decidable (Matched x) := inferInstanceAs (Decidable (_ = _))

/-- What the slot answered before step `k`. -/
def before (k : Nat) : Answer := classify ((baseline :: steps.map (·.2)).getD k [])

/-- Step `k` matched its image with a visible change. -/
def Landed (k : Nat) : Prop :=
  ∃ x, steps[k]? = some x ∧ Matched x ∧ classify x.2 ≠ before baseline steps k

/-- Step `k` mismatched. -/
def Mismatched (k : Nat) : Prop := ∃ x, steps[k]? = some x ∧ ¬ Matched x

/-- **What the variables of the loop say about the steps.** -/
structure Told (t : Tally) : Prop where
  previous : t.previous = before baseline steps steps.length
  phases : t.phases = steps.length
  matched : t.matched = steps.countP (decide <| Matched ·)
  landed : 0 ≤ t.firstLanded → Landed baseline steps t.firstLanded.toNat
  failed : t.failedAfterLand = true → ∃ i j, i < j ∧ Landed baseline steps i ∧ Mismatched steps j

end Told

section Loop

variable {baseline : List (BitVec 8)} {steps : List (Image × List (BitVec 8))}

/-- Later steps do not change what was answered before. -/
theorem before_append {k : Nat} (hk : k ≤ steps.length) (more : List (Image × List (BitVec 8))) :
    before baseline (steps ++ more) k = before baseline steps k := by
  rw [before, List.map_append, ← List.cons_append,
    List.getD_append _ _ _ _ (by rw [List.length_cons, List.length_map]; omega)]
  rfl

theorem Landed.lt {k : Nat} (h : Landed baseline steps k) : k < steps.length :=
  (List.getElem?_eq_some_iff.mp h.choose_spec.1).1

theorem Landed.append {k : Nat} (h : Landed baseline steps k) (more : List (Image × List (BitVec 8))) :
    Landed baseline (steps ++ more) k := by
  have hk := h.lt
  obtain ⟨x, hx, hmatch, hchange⟩ := h
  refine ⟨x, by rw [List.getElem?_append_left hk, hx], hmatch, ?_⟩
  rwa [before_append hk.le]

theorem Mismatched.append {k : Nat} (h : Mismatched steps k)
    (more : List (Image × List (BitVec 8))) : Mismatched (steps ++ more) k := by
  obtain ⟨x, hx, hmatch⟩ := h
  exact ⟨x, by rw [List.getElem?_append_left (List.getElem?_eq_some_iff.mp hx).1, hx], hmatch⟩

theorem tally_concat (x : Image × List (BitVec 8)) :
    tally baseline (steps ++ [x]) = (tally baseline steps).next steps.length x.1 x.2 := by
  rw [tally, List.zipIdx_append, List.foldl_append, Nat.zero_add]
  rfl

/-- One more step. -/
theorem told_next {t : Tally} (h : Told baseline steps t) (x : Image × List (BitVec 8)) :
    Told baseline (steps ++ [x]) (t.next steps.length x.1 x.2) := by
  have hlast : (steps ++ [x])[steps.length]? = some x := List.getElem?_concat_length
  have hbefore : before baseline (steps ++ [x]) steps.length = t.previous := by
    rw [before_append (Nat.le_refl _), h.previous]
  have hlanded : 0 ≤ (t.next steps.length x.1 x.2).firstLanded →
      Landed baseline (steps ++ [x]) (t.next steps.length x.1 x.2).firstLanded.toNat := by
    intro hpos
    unfold Tally.next at hpos ⊢
    simp only at hpos ⊢
    split
    · rename_i hnew
      rw [Bool.and_eq_true, Bool.and_eq_true, beq_iff_eq, bne_iff_ne] at hnew
      exact ⟨x, hlast, hnew.1.1, hbefore ▸ hnew.1.2⟩
    · rename_i hold
      rw [if_neg hold] at hpos
      exact (h.landed hpos).append [x]
  refine ⟨?_, ?_, ?_, hlanded, ?_⟩
  · rw [before, List.length_append, List.length_singleton, List.getD_cons_succ, List.map_append,
      List.getD_append_right _ _ _ _ (by rw [List.length_map]), List.length_map, Nat.sub_self]
    rfl
  · rw [List.length_append, ← h.phases]
    rfl
  · rw [List.countP_append, ← h.matched, List.countP_singleton]
    by_cases hx : Matched x
    · rw [decide_eq_true hx, if_pos rfl]
      exact if_pos (beq_iff_eq.mpr hx)
    · rw [decide_eq_false hx, if_neg Bool.false_ne_true]
      exact if_neg (mt beq_iff_eq.mp hx)
  · intro hfail
    rcases Bool.or_eq_true_iff.mp hfail with hold | hnew
    · obtain ⟨i, j, hij, hi, hj⟩ := h.failed hold
      exact ⟨i, j, hij, hi.append [x], hj.append [x]⟩
    · -- a step that mismatches leaves `firstLanded` as it was
      rw [Bool.and_eq_true, Bool.not_eq_true', decide_eq_true_eq, beq_eq_false_iff_ne] at hnew
      obtain ⟨hmis, hpos⟩ := hnew
      have hsame : (t.next steps.length x.1 x.2).firstLanded = t.firstLanded := by
        refine if_neg fun hok => hmis ?_
        rw [Bool.and_eq_true, Bool.and_eq_true, beq_iff_eq] at hok
        exact hok.1.1
      have hold := h.landed (hsame ▸ hpos)
      exact ⟨_, steps.length, hold.lt, hold.append [x], x, hlast, hmis⟩

/-- **What the loop has counted.** -/
theorem tally_told (baseline : List (BitVec 8)) (steps : List (Image × List (BitVec 8))) :
    Told baseline steps (tally baseline steps) := by
  induction steps using List.reverseRecOn with
  | nil => exact ⟨rfl, rfl, rfl, fun h => absurd h (show ¬ (0 : Int) ≤ -1 by decide), Bool.noConfusion⟩
  | append_singleton steps x ih =>
      rw [tally_concat]
      exact told_next ih x

/-- PASS: every step matched. -/
theorem pass_iff : verdict (tally baseline steps) = .PASS ↔ ∀ x ∈ steps, Matched x := by
  obtain ⟨-, hphases, hmatched, -, -⟩ := tally_told baseline steps
  have hall : (tally baseline steps).matched = (tally baseline steps).phases ↔ ∀ x ∈ steps, Matched x := by
    rw [hphases, hmatched, List.countP_eq_length]
    simp only [decide_eq_true_eq]
  rw [← hall]
  constructor
  · intro h
    unfold verdict at h
    split at h
    · assumption
    · split at h
      · cases h
      · split at h <;> cases h
  · intro h
    rw [verdict, if_pos h]

/-- **PARTIAL is printed only if a step landed and a later one mismatched.** -/
theorem partial_only (h : verdict (tally baseline steps) = .PARTIAL) :
    ∃ i j, i < j ∧ Landed baseline steps i ∧ Mismatched steps j := by
  refine (tally_told baseline steps).failed ?_
  unfold verdict at h
  split at h
  · cases h
  split at h
  · cases h
  split at h
  · assumption
  · cases h

end Loop

/-! ## 3. The slot -/

/-- `probeSlot`: one line of what the slot answers to a header alone. -/
def probeSlot (held : EchoSlot) (workloadID : BitVec 16) : List (BitVec 8) :=
  (echoBytes held [buildWorkloadRequest workloadID]).take requestLineBytes

/-- What `RECONF_ICAP` does to the slot. -/
inductive Icap where
  | live
  | dead
  deriving DecidableEq

def Icap.install : Icap → EchoSlot → EchoSlot → EchoSlot
  | .live, _, programmed => programmed
  | .dead, held, _ => held

/-- The steps of a program: each installs its image and probes the slot. -/
def runProgram (icap : Icap) (workloadID : BitVec 16) :
    EchoSlot → List EchoSlot → List (Image × List (BitVec 8))
  | _, [] => []
  | held, img :: program =>
    (image img, probeSlot (icap.install held img) workloadID) ::
      runProgram icap workloadID (icap.install held img) program

/-- **The verdict of the tool** on a slot that holds `initial`. -/
def main (icap : Icap) (slot : Fin slotCount) (initial : EchoSlot) (program : List EchoSlot) : Verdict :=
  verdict (tally (probeSlot initial (BitVec.ofNat 16 slot))
    (runProgram icap (BitVec.ofNat 16 slot) initial program))

/-- The request of a probe is one of `sw/app`, without data. -/
theorem probe_request (workloadID : BitVec 16) :
    App.buildRequest workloadID [] defaultTopConfig false = .ok ⟨workloadID, reqFlagSingle,
      defaultTopConfig, 0, requestLineBytes, [buildWorkloadRequest workloadID]⟩ := by
  refine App.checkSegments_of fun seg hseg => ?_
  rw [List.mem_singleton.mp hseg, App.segmentOk, length_header]
  decide

theorem probe_line (held : EchoSlot) (workloadID : BitVec 16) :
    echoBytes held [buildWorkloadRequest workloadID] =
      toBytes 64 (held.line (line (buildWorkloadRequest workloadID))) := by
  have hlen : (buildWorkloadRequest workloadID).length = 64 := length_header ..
  rw [echoBytes, List.flatten_singleton, lines_one (by decide) hlen, List.flatMap_singleton]
  rfl

/-- **The device answers a probe with this line.** -/
theorem probe_answers [FifoKind] {n : Nat} (h0 : 0 < n) (hn : n < 256) (held : EchoSlot) (slot : Fin slotCount)
    {session : BitVec 16} (hs : session ≠ 0xFFFF) :
    ∃ q : AppRequest Unit, q.connid = session ∧
      q.packets.flatten.map (·.1) = lines 64 (buildWorkloadRequest (BitVec.ofNat 16 slot)) ∧
      Answers n held.module q (beatBytes · = probeSlot held (BitVec.ofNat 16 slot)) := by
  have hbuilt := App.buildRequest_ok (probe_request (BitVec.ofNat 16 slot))
  have hw : BitVec.ofNat 16 slot ≠ reconfWorkloadID :=
    (by decide : ∀ slot : Fin slotCount, BitVec.ofNat 16 slot ≠ reconfWorkloadID) slot
  refine ⟨deliver hbuilt session hs hw (show requestLineBytes ≤ 64 * 512 by decide), rfl, ?_, ?_⟩
  · refine (packets_lines hbuilt).trans ?_
    rw [List.flatten_singleton]
  · have hline : probeSlot held (BitVec.ofNat 16 slot) =
        echoBytes held [buildWorkloadRequest (BitVec.ofNat 16 slot)] := by
      rw [probeSlot, List.take_of_length_le (by rw [probe_line, length_toBytes]; rfl)]
    rw [hline]
    exact device_answers h0 hn hbuilt rfl held

/-- **Both modules answer a probe with `0xff` in byte 0**: the header starts with ones. -/
theorem probe_byte (held : EchoSlot) (workloadID : BitVec 16) :
    (probeSlot held workloadID).getD 0 0 = 0xff := by
  have hbyte : byteAt (held.line (line (buildWorkloadRequest workloadID))) 0 = 0xff := by
    cases held with
    | pattern => exact header_prefix _ _ _ _ (by decide)
    | or =>
        rw [EchoSlot.line, BitVec.or_allOnes]
        decide +kernel
  rw [probeSlot, probe_line, List.take_of_length_le (by rw [length_toBytes]; rfl),
    getD_toBytes _ (by decide), hbyte]

/-! ## 4. The verdict -/

/-- The steps of a program match when they program `or_slot`, whatever they install. -/
theorem matched_iff (icap : Icap) (workloadID : BitVec 16) (held : EchoSlot) (program : List EchoSlot) :
    (∀ x ∈ runProgram icap workloadID held program, Matched x) ↔ .pattern ∉ program := by
  induction program generalizing held with
  | nil => simp [runProgram]
  | cons img program ih =>
      have himg : (0xff : BitVec 8) = (image img).expect ↔ ¬ .pattern = img := by
        cases img <;> decide
      rw [runProgram, List.forall_mem_cons, ih, Matched, probe_byte, himg, List.mem_cons, not_or]

/-- What the tool is for: with a live ICAP it ends with PASS and with a dead one it does not; and
    PARTIAL tells of a step that landed before one that mismatched. -/
structure Sound (slot : Fin slotCount) (initial : EchoSlot) (program : List EchoSlot) : Prop where
  live : main .live slot initial program = .PASS
  dead : main .dead slot initial program ≠ .PASS
  landed : ∀ baseline steps, verdict (tally baseline steps) = .PARTIAL →
    ∃ i j, i < j ∧ Landed baseline steps i ∧ Mismatched steps j

/-- **The verdict depends on the program only.** A live ICAP gives PASS exactly for the programs
    without `pattern_slot`, and a dead one gives another verdict exactly for those with it: no program
    has both. What PARTIAL says is true of all responses. -/
theorem swap_verdict (slot : Fin slotCount) (initial : EchoSlot) (program : List EchoSlot) :
    (main .live slot initial program = .PASS ↔ .pattern ∉ program) ∧
    (main .dead slot initial program ≠ .PASS ↔ .pattern ∈ program) ∧
    (∀ baseline steps, verdict (tally baseline steps) = .PARTIAL →
      ∃ i j, i < j ∧ Landed baseline steps i ∧ Mismatched steps j) ∧
    ¬ Sound slot initial program := by
  have hpass : ∀ icap, main icap slot initial program = .PASS ↔ .pattern ∉ program := fun icap =>
    pass_iff.trans (matched_iff icap _ initial program)
  refine ⟨hpass .live, (not_congr (hpass .dead)).trans not_not, fun _ _ => partial_only, fun h => ?_⟩
  exact h.dead ((hpass .dead).mpr ((hpass .live).mp h.live))

/-- The default program on a slot that boots with `or_slot`: a live ICAP is reported as one that
    changed nothing. And `or_slot` alone passes with a dead ICAP on top of `pattern_slot`. -/
theorem swap_verdict_default :
    main .live ⟨0, by decide⟩ .or [.pattern, .or] = .FAIL ∧
    main .dead ⟨0, by decide⟩ .pattern [.or] = .PASS ∧
    ¬ Sound ⟨0, by decide⟩ .or [.pattern, .or] ∧ ¬ Sound ⟨0, by decide⟩ .pattern [.or] := by
  have hlive : main .live ⟨0, by decide⟩ .or [.pattern, .or] = .FAIL := by decide +kernel
  have hdead : main .dead ⟨0, by decide⟩ .pattern [.or] = .PASS := by decide +kernel
  refine ⟨hlive, hdead, fun h => ?_, fun h => h.dead hdead⟩
  cases hlive.symm.trans h.live

end Frac.Client.Swap
