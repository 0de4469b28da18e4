/-
  File:      Frac/Slots/Operands.lean
  Subject:   The operands of the floating-point cores, for `log.v` and `norm.v`, over cores whose channels
             are ready when they like.

  * `Upto` -- how far a list of requests is worked off;
  * `LogPaired`, `NormPaired` -- **the n-th words of both channels belong to one value**, every value goes
    in once, and the responses are those of the requests;
  * `operands_paired` -- which holds in every state of a run whose edges are joint;
  * `LogOrderly`, `NormOrderly` -- the law of the channels alone;
  * `operands_split` -- **which does not hold in every run**: a channel that is ready alone takes a word twice.
-/
import Frac.Slots.LogOperands
import Frac.Slots.NormOperands
import Frac.Slots.NormStream

namespace Frac.Slots

open Bits Clocked

/-! ## 1. How far the requests are worked off -/

/-- `l` is what the first `k` requests give, and of the next one a part. -/
def Upto {ρ β : Type} (f : ρ → List β) (rs : List ρ) (k : Nat) (l : List β) : Prop :=
  (rs.take k).flatMap f <+: l ∧ l <+: (rs.take (k + 1)).flatMap f

theorem upto_part {ρ β : Type} {f : ρ → List β} {c e : List ρ} {part : List β}
    (hpart : part <+: (e.take 1).flatMap f) : Upto f (c ++ e) c.length (c.flatMap f ++ part) := by
  refine ⟨?_, ?_⟩
  · rw [List.take_left]
    exact List.prefix_append _ _
  · rw [List.take_length_add_append, List.flatMap_append]
    exact (List.prefix_append_right_inj _).mpr hpart

/-! ## 2. `log` -/

/-- **The words of the requests are paired in the cores of `log`**, as far as the requests are worked off. -/
def LogPaired (F : LogFn) (requests : List StreamRequest) (y : Stream (logJoin F)) : Prop :=
  ∃ k, Upto (StreamRequest.logAnswer F) requests k y.sent ∧
    (∃ L, y.slot.sub.Fed L ∧ Upto (fun r => r.allValues.map fun x => (fpOne, x)) requests k L) ∧
    (∃ L, y.slot.div.Fed L ∧ Upto (fun r => r.allValues.map fun x => (x, F.less x)) requests k L) ∧
    Upto (fun r => r.allValues.map F.odds) requests k y.slot.ln.words

section Log

variable {F : LogFn} {w : List (BitVec 32)} {n : Nat} {out : List SlotBeat}

/-- The first words of the requests, as operands. -/
theorem upto_words {β : Type} {g : BitVec 32 → β} {c rs : List StreamRequest}
    (hw : w <+: (rs.take 1).flatMap StreamRequest.allValues) {m : Nat}
    (hm : (c.flatMap StreamRequest.allValues).length ≤ m) :
    Upto (fun r => r.allValues.map g) (c ++ rs) c.length
      (((c.flatMap StreamRequest.allValues ++ w).take m).map g) := by
  rw [List.take_append, List.take_of_length_le hm, List.map_append, List.map_flatMap]
  refine upto_part ?_
  have hpart := ((List.take_prefix (m - (c.flatMap StreamRequest.allValues).length) w).trans hw).map g
  rw [List.map_flatMap] at hpart
  exact hpart

/-- The words `w` of the request under way are in the cores behind those of the requests answered. -/
theorem logPaired_flow {requests rs : List StreamRequest} {c : List (StreamRequest × Unit)} {y : Stream (logJoin F)}
    (hreq : requests = c.map Prod.fst ++ rs) (hw : w <+: (rs.take 1).flatMap StreamRequest.allValues)
    (hout : out <+: (rs.take 1).flatMap (StreamRequest.logAnswer F))
    (hsent : y.sent = (c.flatMap fun x => x.1.logAnswer F) ++ out)
    (hflow : LogFlow F (answeredWords c ++ w) y.slot) (hn : y.slot.ln.taken = (answeredWords c).length + n) :
    LogPaired F requests y := by
  obtain ⟨hln, hdiv, hsub⟩ := logFlow_order hflow
  have hwords : answeredWords c = (c.map Prod.fst).flatMap StreamRequest.allValues := (List.flatMap_map ..).symm
  have hanswers : (c.flatMap fun x => x.1.logAnswer F) = (c.map Prod.fst).flatMap (StreamRequest.logAnswer F) :=
    (List.flatMap_map ..).symm
  rw [hwords] at hflow hn hsub
  rw [hreq]
  refine ⟨(c.map Prod.fst).length, ?_, ⟨_, hflow.sub, ?_⟩, ⟨_, hflow.div, ?_⟩, ?_⟩
  · rw [hsent, hanswers]
    exact upto_part hout
  · have hall := upto_words (g := fun x => (fpOne, x)) (c := c.map Prod.fst) hw (Nat.le_add_right _ w.length)
    rw [← List.length_append, List.take_length] at hall
    exact hall
  · exact upto_words hw (by omega)
  · rw [hflow.ln.words]
    exact upto_words hw (by omega)

theorem logPaired_at {requests : List StreamRequest} {y : Stream (logJoin F)} (h : (logFeeding F).At requests y) :
    LogPaired F requests y := by
  cases h with
  | rests hreq _ hsent h =>
      refine logPaired_flow (w := []) (n := 0) hreq List.nil_prefix List.nil_prefix ?_ ?_ h.all
      · exact hsent.trans (List.append_nil _).symm
      · rw [List.append_nil]
        exact h.flow
  | serves hreq _ hsent h =>
      obtain ⟨w, n, hpos, hflow, hn⟩ := h
      refine logPaired_flow hreq ?_ ?_ hsent hflow hn
      · show w <+: [_].flatMap _
        rw [List.flatMap_singleton]
        exact logPos_words hpos
      · show _ <+: [_].flatMap _
        rw [List.flatMap_singleton]
        exact logPos_sent hpos

end Log

/-! ## 3. `norm` -/

/-- **The words of the requests are paired in the cores of `norm`**, as far as the requests are worked off;
    the range and the words of a request are taken with its extremes. -/
def NormPaired (F : NormFn) (requests : List StreamRequest) (y : Stream (normJoin F)) : Prop :=
  ∃ found : NormAnswered, found.map Prod.fst = requests ∧ found.Found ∧
    ∃ k, Upto (fun x => x.1.scaledAnswer F x.2) found k y.sent ∧
      (∃ L, y.slot.sub.Fed L ∧ Upto (fun x => x.1.subPairs x.2) found k L) ∧
      ∃ L, y.slot.div.Fed L ∧ Upto (fun x => x.1.divPairs F x.2) found k L

section Norm

variable {F : NormFn} {requests : List StreamRequest} {y : Stream (normJoin F)}

/-- Requests to come, with their extremes. -/
def withExtremes (rs : List StreamRequest) : NormAnswered := rs.map fun r => (r, (r.least, r.greatest))

theorem withExtremes_found (rs : List StreamRequest) :
    (withExtremes rs).map Prod.fst = rs ∧ (withExtremes rs).Found := by
  refine ⟨?_, fun x hx => ?_⟩
  · rw [withExtremes, List.map_map]
    exact List.map_id' rs
  · obtain ⟨r, -, rfl⟩ := List.mem_map.mp hx
    exact fun _ => ⟨rfl, rfl⟩

/-- What is taken for the request under way is behind what was for the requests answered. -/
theorem normPaired_parts {c e : NormAnswered} {a b : List (BitVec 32 × BitVec 32)} {out : List SlotBeat}
    (hreq : requests = c.map Prod.fst ++ e.map Prod.fst) (hc : c.Found) (he : e.Found)
    (hout : out <+: (e.take 1).flatMap fun x => x.1.scaledAnswer F x.2)
    (hsub : a <+: (e.take 1).flatMap fun x => x.1.subPairs x.2)
    (hdiv : b <+: (e.take 1).flatMap fun x => x.1.divPairs F x.2)
    (hsent : y.sent = (c.flatMap fun x => x.1.scaledAnswer F x.2) ++ out)
    (hS : y.slot.sub.Fed (c.subs ++ a)) (hD : y.slot.div.Fed (c.divs F ++ b)) : NormPaired F requests y := by
  refine ⟨c ++ e, ?_, fun x hx => ?_, c.length, ?_, ⟨_, hS, upto_part hsub⟩, ⟨_, hD, upto_part hdiv⟩⟩
  · rw [List.map_append, hreq]
  · exact (List.mem_append.mp hx).elim (hc x) (he x)
  · rw [hsent]
    exact upto_part hout

/-- Nothing is taken for the request under way. -/
theorem normPaired_still {c : NormAnswered} {rs : List StreamRequest} (hreq : requests = c.map Prod.fst ++ rs)
    (hc : c.Found) (hsent : y.sent = c.flatMap fun x => x.1.scaledAnswer F x.2)
    (h : NormStill c.subs (c.divs F) y.slot) : NormPaired F requests y := by
  obtain ⟨hfst, hfound⟩ := withExtremes_found rs
  refine normPaired_parts (e := withExtremes rs) (hfst.symm ▸ hreq) hc hfound List.nil_prefix List.nil_prefix
    List.nil_prefix (hsent.trans (List.append_nil _).symm) ?_ ?_
  · rw [List.append_nil]
    exact h.sub
  · rw [List.append_nil]
    exact h.div

/-- The range of the request under way is taken, or its words too. -/
theorem normPaired_words {c : NormAnswered} {r : StreamRequest} {rs : List StreamRequest} {lo hi : BitVec 32}
    {w v : List (BitVec 32)} {out : List SlotBeat} (hreq : requests = c.map Prod.fst ++ r :: rs) (hc : c.Found)
    (he : Extremes r lo hi) (hd : r.data ≠ []) (hw : w <+: r.allValues) (hv : v <+: r.allValues)
    (hout : out <+: r.reply (mapWords (F.scaled lo hi)))
    (hsent : y.sent = (c.flatMap fun x => x.1.scaledAnswer F x.2) ++ out)
    (hS : y.slot.sub.Fed (c.subs ++ [(hi, lo)] ++ w.map fun x => (x, lo)))
    (hD : y.slot.div.Fed (c.divs F ++ v.map fun x => (F.sub x lo, F.sub hi lo))) : NormPaired F requests y := by
  obtain ⟨hfst, hfound⟩ := withExtremes_found rs
  have hfirst : ∀ {β : Type} (f : StreamRequest × (BitVec 32 × BitVec 32) → List β),
      (((r, (lo, hi)) :: withExtremes rs).take 1).flatMap f = f (r, (lo, hi)) := fun f => List.flatMap_singleton ..
  refine normPaired_parts (e := (r, (lo, hi)) :: withExtremes rs) (a := (hi, lo) :: w.map fun x => (x, lo)) ?_
    hc (fun x hx => ?_) ?_ ?_ ?_ hsent ?_ hD
  · rw [hreq, List.map_cons, hfst]
  · rcases List.mem_cons.mp hx with rfl | hx
    · exact he
    · exact hfound x hx
  · rw [hfirst]
    exact hout
  · rw [hfirst]
    show _ <+: r.subPairs (lo, hi)
    rw [StreamRequest.subPairs, if_neg hd]
    exact List.cons_prefix_cons.mpr ⟨rfl, hw.map _⟩
  · rw [hfirst]
    exact hv.map _
  · rw [List.append_assoc] at hS
    exact hS

theorem normPaired_at (h : (normFeeding F).At requests y) : NormPaired F requests y := by
  cases h with
  | rests hreq _ hsent h => exact normPaired_still hreq h.found hsent h.still
  | @serves c r rest j out hreq _ hsent h =>
      obtain ⟨hc, stage, hpos, hin⟩ := h
      cases stage with
      | first =>
          obtain rfl : out = [] := by cases hpos <;> rfl
          exact normPaired_still hreq hc (hsent.trans (List.append_nil _)) hin
      | range lo hi =>
          obtain ⟨hd, he, rfl⟩ : r.data ≠ [] ∧ Extremes r lo hi ∧ out = [] := by
            cases hpos with
            | range _ hd _ he => exact ⟨hd, he, rfl⟩
          have hm : NormMeasures _ _ lo hi _ := hin
          unfold NormMeasures at hm
          cases hissued : y.slot.regs.rangeIssued with
          | false =>
              rw [hissued] at hm
              exact normPaired_still hreq hc (hsent.trans (List.append_nil _)) hm
          | true =>
              rw [hissued, if_pos rfl] at hm
              refine normPaired_words (w := []) (v := []) hreq hc he hd List.nil_prefix List.nil_prefix List.nil_prefix
                hsent ?_ ?_
              · rw [List.map_nil, List.append_nil]
                exact hm.sub
              · rw [List.map_nil, List.append_nil]
                exact hm.div
      | second lo hi w n =>
          obtain ⟨hwords, hsends, he, hd⟩ := normPos_begun hpos
          obtain ⟨u, hsecond⟩ := hin
          exact normPaired_words hreq hc he hd hwords ((List.take_prefix u _).trans hwords) hsends hsent hsecond.sub
            hsecond.div

end Norm

/-! ## 4. Every run -/

/-- **The operand channels of the cores stay together.** In every run whose edges are all joint, from reset
    and with empty cores, whatever the requests, gaps and stalls, and however the cores are ready and show
    their results. -/
theorem operands_paired (F : LogFn) (G : NormFn) (requests : List StreamRequest) :
    (∀ (mem : BitVec 5 → BitVec 32) (is : List (StreamIn (logJoin F))),
      Meets Stream.edge (fun y i => LogJoin.Joint y.slot i.cores) (.start (LogJoin.start mem) requests) is →
      LogPaired F requests (run Stream.edge (.start (LogJoin.start mem) requests) is)) ∧
    (∀ (linebuf : BitVec 8 → BitVec 512) (hold : BitVec 512) (is : List (StreamIn (normJoin G))),
      Meets Stream.edge (fun y i => NormJoin.Joint y.slot i.cores) (.start (NormJoin.start linebuf hold) requests) is →
      NormPaired G requests (run Stream.edge (.start (NormJoin.start linebuf hold) requests) is)) := by
  refine ⟨fun mem is hm => ?_, fun linebuf hold is hm => ?_⟩
  · exact logPaired_at (feeding_run (logFeeding F) requests (logRests_start F mem) is hm)
  · exact normPaired_at (feeding_run (normFeeding G) requests (normRests_start G linebuf hold) is hm)

/-- A core that takes what it is offered, and shows its results. -/
def eager : JoinPins := ⟨true, true, true⟩

/-- A core that does nothing. -/
def asleep : JoinPins := ⟨false, false, false⟩

/-- A request of one data line. -/
def oneLineRequest : StreamRequest := ⟨⟨64, 1, 0x900000005⟩, []⟩

def logPins (sub div : JoinPins) : StreamIn (logJoin integerFn) := ⟨true, true, ⟨sub, div, true, true⟩⟩
def normPins (sub div : JoinPins) : StreamIn (normJoin integerNorm) := ⟨true, true, ⟨sub, div⟩⟩

/-- The inputs of a run whose cores take turns are of two kinds. -/
theorem mem_turns {α : Type} {n : Nat} {x a b : α} (h : x ∈ (List.replicate n [a, b]).flatten) : x = a ∨ x = b := by
  obtain ⟨l, hl, hx⟩ := List.mem_flatten.mp h
  rw [List.eq_of_mem_replicate hl] at hx
  exact List.mem_pair.mp hx

/-- The channels of every core are ready together, at every second edge: the request is answered. -/
theorem operands_paired_turns :
    (let y := run Stream.edge (.start (LogJoin.start fun _ => 0) [oneLineRequest])
      (List.replicate 100 [logPins eager eager, logPins asleep asleep]).flatten
    LogPaired integerFn [oneLineRequest] y ∧ y.sent.length = 1) ∧
    (let y := run Stream.edge (.start (NormJoin.start (fun _ => 0) 0) [oneLineRequest])
      (List.replicate 120 [normPins eager eager, normPins asleep asleep]).flatten
    NormPaired integerNorm [oneLineRequest] y ∧ y.sent.length = 1) := by
  have h := operands_paired integerFn integerNorm [oneLineRequest]
  refine ⟨⟨h.1 _ _ (Meets.mono (fun y i hi => ?_) (Meets.of_mem fun _ => mem_turns)), ?_⟩,
    h.2 _ _ _ (Meets.mono (fun y i hi => ?_) (Meets.of_mem fun _ => mem_turns)), ?_⟩
  · rcases hi with rfl | rfl
    · exact fun _ _ => rfl
    · exact fun _ h => nomatch h
  · decide +kernel
  · rcases hi with rfl | rfl
    · exact ⟨fun _ => rfl, fun _ _ => rfl, fun _ _ => rfl⟩
    · exact ⟨fun _ => rfl, fun _ _ => rfl, fun _ h => nomatch h⟩
  · decide +kernel

/-! ## 5. A channel that is ready alone -/

/-- **The k-th words of both channels belong to the same value, and every value goes in once**: the law of
    the cores of `log`, each channel at its own pace. -/
def LogOrderly (F : LogFn) (requests : List StreamRequest) (y : Stream (logJoin F)) : Prop :=
  y.slot.sub.Orderly (requests.flatMap fun r => r.allValues.map fun x => (fpOne, x)) ∧
    y.slot.div.Orderly (requests.flatMap fun r => r.allValues.map fun x => (x, F.less x))

/-- The same law of the cores of `norm`, where the range of a request goes in before its words. -/
def NormOrderly (F : NormFn) (requests : List StreamRequest) (y : Stream (normJoin F)) : Prop :=
  ∃ found : NormAnswered, found.map Prod.fst = requests ∧ found.Found ∧
    y.slot.sub.Orderly (found.flatMap fun x => x.1.subPairs x.2) ∧
    y.slot.div.Orderly (found.flatMap fun x => x.1.divPairs F x.2)

theorem upto_begins {ρ β : Type} {f : ρ → List β} {rs : List ρ} {k : Nat} {l : List β} (h : Upto f rs k l) :
    l <+: rs.flatMap f := by
  refine h.2.trans ?_
  conv_rhs => rw [← List.take_append_drop (k + 1) rs, List.flatMap_append]
  exact List.prefix_append _ _

/-- Paired words obey it. -/
theorem logPaired_orderly {F : LogFn} {requests : List StreamRequest} {y : Stream (logJoin F)}
    (h : LogPaired F requests y) : LogOrderly F requests y := by
  obtain ⟨k, -, ⟨_, hsub, hS⟩, ⟨_, hdiv, hD⟩, -⟩ := h
  exact ⟨hsub.orderly (upto_begins hS), hdiv.orderly (upto_begins hD)⟩

theorem normPaired_orderly {F : NormFn} {requests : List StreamRequest} {y : Stream (normJoin F)}
    (h : NormPaired F requests y) : NormOrderly F requests y := by
  obtain ⟨found, hreq, hfound, k, -, ⟨_, hsub, hS⟩, _, hdiv, hD⟩ := h
  exact ⟨found, hreq, hfound, hsub.orderly (upto_begins hS), hdiv.orderly (upto_begins hD)⟩

/-- **A channel that is ready alone takes the word that is offered, and takes it again** when the other is
    ready too: its second word is the first one's, not that of the second value. Channel B of the divider
    of `log`, as the first difference comes out; channel A of the subtractor of `norm`, as the range goes in. -/
theorem operands_split :
    ¬ LogOrderly integerFn [oneLineRequest] (run Stream.edge (.start (LogJoin.start fun _ => 0) [oneLineRequest])
      (List.replicate 130 (logPins eager eager) ++ [logPins eager ⟨false, true, true⟩, logPins eager eager])) ∧
    ¬ NormOrderly integerNorm [oneLineRequest] (run Stream.edge (.start (NormJoin.start (fun _ => 0) 0) [oneLineRequest])
      (List.replicate 145 (normPins eager eager) ++ [normPins ⟨true, false, true⟩ eager, normPins eager eager])) := by
  refine ⟨fun ⟨_, hdiv⟩ => ?_, fun ⟨found, hreq, _, hsub, _⟩ => ?_⟩
  · revert hdiv
    unfold Join.Orderly
    decide +kernel
  · obtain ⟨⟨r, lo, hi⟩, rfl, rfl⟩ := List.map_eq_singleton_iff.mp hreq
    have hwords : oneLineRequest.allValues = 5 :: oneLineRequest.allValues.tail := by decide +kernel
    have htaken : (run Stream.edge (.start (NormJoin.start (fun _ => 0) 0) [oneLineRequest])
        (List.replicate 145 (normPins eager eager) ++
          [normPins ⟨true, false, true⟩ eager, normPins eager eager])).slot.sub.a = [9, 9] := by decide +kernel
    obtain ⟨t, ht⟩ := hsub.1
    rw [htaken, List.flatMap_singleton, StreamRequest.subPairs,
      if_neg (show oneLineRequest.data ≠ [] by decide +kernel), hwords] at ht
    -- the second word of the request is 5
    exact absurd (List.cons.inj (List.cons.inj ht).2).1 (by decide : (9 : BitVec 32) ≠ 5)

end Frac.Slots
