/-
  File:      Frac/Slots/NormOperands.lean
  Subject:   `norm.v` over cores whose operand channels are ready when they like, each on its own.

  Both channels of the subtractor are offered their words while the module issues (`sub_issue`), and both
  channels of the divider a result of the subtractor (`sub_to_div`), without a look at each other; and the
  range is read off the subtractor whether or not its result is taken (`sub_res_ready`).

  * `NormJoin` -- the module with its cores; `NormJoin.Joint` -- the channels of a core are ready together
    where words are offered, and both those of the divider when the range comes out;
  * `NormHas` -- what the cores have taken; `normStill_edge`, `normRange_edge`, `normSecond_edge` -- an edge
    of each pass;
  * `normFeeding` -- **the requests are answered one after the other** at edges that are joint.
-/
import Frac.Lib.Join
import Frac.Slots.NormLines

namespace Frac.Slots

open Bits

/-! ## 1. The module with its cores -/

/-- `sub_issue`. -/
def Norm.subIssue (s : Norm) : Bool :=
  s.state == .range && !s.rangeIssued || s.state == .norm && s.issuing && s.repLoaded

/-- `sub_a`. -/
def Norm.subA (s : Norm) : BitVec 32 := if s.state = .range then s.maxVal else word s.hold s.repIdx

/-- The module with its cores: what each has taken, and how many of its results were taken. -/
structure NormJoin where
  regs : Norm
  sub : Join (BitVec 32) (BitVec 32)
  div : Join (BitVec 32) (BitVec 32)

/-- What the cores do at one edge. -/
structure NormPins where
  sub : JoinPins
  div : JoinPins

namespace NormJoin

/-- After `rst`, with no word in the cores. -/
def start (linebuf : BitVec 8 → BitVec 512) (hold : BitVec 512) : NormJoin :=
  ⟨Norm.reset linebuf hold, .empty, .empty⟩

variable (F : NormFn)

/-- `sub_res_data` and `div_res_data`, where they are valid. -/
def subRes (p : NormJoin) (i : NormPins) : Option (BitVec 32) := (p.sub.oldest i.sub).map fun x => F.sub x.1 x.2
def divRes (p : NormJoin) (i : NormPins) : Option (BitVec 32) := (p.div.oldest i.div).map fun x => F.div x.1 x.2

/-- What the cores drive. -/
def cores (p : NormJoin) (i : NormPins) : NormCores where
  subAReady := i.sub.aReady
  subBReady := i.sub.bReady
  subResValid := (p.subRes F i).isSome
  subResData := (p.subRes F i).getD 0
  divResValid := (p.divRes F i).isSome
  divResData := (p.divRes F i).getD 0

/-- `sub_res_ready`. -/
def subResReady (i : NormPins) : Bool := i.div.aReady && i.div.bReady

/-- `sub_to_div`, with the result. -/
def subToDiv (p : NormJoin) (i : NormPins) : Option (BitVec 32) :=
  if p.regs.state = .norm then p.subRes F i else none

/-- The cores after an edge. -/
def moved (p : NormJoin) (i : NormPins) (regs : Norm) : NormJoin where
  regs := regs
  sub := p.sub.edge i.sub (if p.regs.subIssue then some p.regs.subA else none)
    (if p.regs.subIssue then some p.regs.minVal else none) (subResReady i)
  div := p.div.edge i.div (p.subToDiv F i) ((p.subToDiv F i).map fun _ => p.regs.range) true

def edge (p : NormJoin) (o : Option SlotBeat) (t : Bool) (i : NormPins) : NormJoin :=
  p.moved F i (p.regs.edge o t (p.cores F i))

/-- **The channels of a core are ready together** where words are offered to it, and the result of the
    subtractor is taken where the range is read off it. -/
structure Joint (p : NormJoin) (i : NormPins) : Prop where
  issue : p.regs.subIssue = true → i.sub.aReady = i.sub.bReady
  divide : p.regs.state = .norm → (p.sub.oldest i.sub).isSome = true → i.div.aReady = i.div.bReady
  measure : p.regs.state = .range → (p.sub.oldest i.sub).isSome = true → subResReady i = true

instance (p : NormJoin) (i : NormPins) : Decidable (p.Joint i) :=
  decidable_of_iff ((_ → _) ∧ (_ → _ → _) ∧ (_ → _ → _))
    ⟨fun h => ⟨h.1, h.2.1, h.2.2⟩, fun h => ⟨h.issue, h.divide, h.measure⟩⟩

end NormJoin

def normJoin (F : NormFn) : SlotModule where
  State := NormJoin
  Cores := NormPins
  Idle p := p.regs.Idle
  tready p _ := p.regs.tready
  edge p o t i := p.edge F o t i
  sent p _ t := if p.regs.respValid && t then some p.regs.response else none
  willing p t i := p.regs.willing t (p.cores F i)

/-! ## 2. The words in the cores -/

/-- What the cores have taken, and how many of their results were taken. -/
structure NormHas (S D : List (BitVec 32 × BitVec 32)) (m n : Nat) (p : NormJoin) : Prop where
  sub : p.sub.Fed S
  subTaken : p.sub.taken = m
  div : p.div.Fed D
  divTaken : p.div.taken = n

/-- The cores are empty. -/
def NormStill (S D : List (BitVec 32 × BitVec 32)) (p : NormJoin) : Prop := NormHas S D S.length D.length p

/-- **The second pass**: the words `w` are issued, the first `u` of them went on to the divider, and `n` of
    those came out of it. -/
def NormSecond (F : NormFn) (S D : List (BitVec 32 × BitVec 32)) (lo hi : BitVec 32) (w : List (BitVec 32))
    (u n : Nat) (p : NormJoin) : Prop :=
  NormHas (S ++ [(hi, lo)] ++ w.map fun x => (x, lo)) (D ++ (w.take u).map fun x => (F.sub x lo, F.sub hi lo))
    (S.length + 1 + u) (D.length + n) p

section Cores

variable {F : NormFn} {S D : List (BitVec 32 × BitVec 32)} {m n : Nat} {p : NormJoin} {i : NormPins}

theorem norm_subFire (s : Norm) (c : NormCores) : s.subFire c = (s.subIssue && c.subAReady && c.subBReady) := rfl

/-- **The subtractor** takes a pair, or nothing. -/
theorem normSub_moved (h : p.sub.Fed S) (hok : p.Joint i) (regs : Norm) :
    (p.moved F i regs).sub.Fed
      (S ++ (if p.regs.subFire (p.cores F i) then some (p.regs.subA, p.regs.minVal) else none).toList) := by
  have hboth := hok.issue
  refine Join.fed_edge h ?_ ?_ (NormJoin.subResReady i)
  · rw [norm_subFire]
    show _ = Option.map Prod.fst (if (p.regs.subIssue && i.sub.aReady && i.sub.bReady) = true then _ else _)
    cases hissue : p.regs.subIssue with
    | false => exact ite_self _
    | true => rw [hboth hissue]; cases i.sub.bReady <;> rfl
  · rw [norm_subFire]
    show _ = Option.map Prod.snd (if (p.regs.subIssue && i.sub.aReady && i.sub.bReady) = true then _ else _)
    cases hissue : p.regs.subIssue with
    | false => exact ite_self _
    | true => rw [hboth hissue]; cases i.sub.bReady <;> rfl

/-- Outside the second pass nothing goes into the divider. -/
theorem normDiv_still (h : p.div.Fed D) (hn : p.div.taken = D.length) (hs : p.regs.state ≠ .norm) (regs : Norm) :
    (p.moved F i regs).div.Fed D ∧ (p.moved F i regs).div.taken = D.length := by
  have hin : p.subToDiv F i = none := if_neg hs
  have hfed := Join.fed_edge (x := none) h (i := i.div) (a := p.subToDiv F i)
    (b := (p.subToDiv F i).map fun _ => p.regs.range) (by rw [hin]; exact ite_self _) (by rw [hin]; exact ite_self _) true
  rw [Option.toList_none, List.append_nil] at hfed
  have hnone : p.div.pairs.left i.div.shown true = none := by
    refine Core.left_none ?_
    rw [h.pairs.words]
    exact Nat.le_of_eq hn.symm
  refine ⟨hfed, ?_⟩
  show p.div.taken + (p.div.pairs.left i.div.shown true).toList.length = _
  rw [hnone]
  exact hn

/-- A subtractor all of whose results are taken shows none. -/
theorem normSub_silent (h : p.sub.Fed S) (hm : p.sub.taken = S.length) (i : NormPins) :
    p.sub.oldest i.sub = none ∧ (p.sub.pairs.left i.sub.shown (NormJoin.subResReady i)) = none := by
  have hall : p.sub.pairs.words.length ≤ p.sub.pairs.taken := by
    rw [h.pairs.words]
    exact Nat.le_of_eq hm.symm
  exact ⟨Core.oldest_none hall, Core.left_none hall⟩

/-- **An edge of the first pass.** -/
theorem normStill_edge (h : NormStill S D p) (hs : p.regs.state = .rx) (hok : p.Joint i) (regs : Norm) :
    NormStill S D (p.moved F i regs) := by
  have hfire : p.regs.subFire (p.cores F i) = false := by rw [Norm.subFire, hs]; rfl
  have hsub := normSub_moved (F := F) h.sub hok regs
  obtain ⟨hdiv, hn⟩ := normDiv_still (F := F) (i := i) h.div h.divTaken (by rw [hs]; exact Pass.noConfusion) regs
  rw [hfire, if_neg Bool.false_ne_true, Option.toList_none, List.append_nil] at hsub
  refine ⟨hsub, ?_, hdiv, hn⟩
  show p.sub.taken + (p.sub.pairs.left i.sub.shown (NormJoin.subResReady i)).toList.length = _
  rw [(normSub_silent h.sub h.subTaken i).2]
  exact h.subTaken

/-- **Between the passes**: the range is issued or not. -/
def NormMeasures (S D : List (BitVec 32 × BitVec 32)) (lo hi : BitVec 32) (p : NormJoin) : Prop :=
  NormHas (if p.regs.rangeIssued then S ++ [(hi, lo)] else S) D S.length D.length p

variable {lo hi : BitVec 32}

/-- The result of the subtractor is the range, once it is issued. -/
theorem normRange_shows (h : NormMeasures S D lo hi p) (i : NormPins) :
    p.sub.oldest i.sub = if p.regs.rangeIssued && i.sub.shown then some (hi, lo) else none := by
  have hfed := h.sub
  cases hissued : p.regs.rangeIssued with
  | false =>
      rw [hissued] at hfed
      exact (normSub_silent hfed h.subTaken i).1
  | true =>
      rw [hissued, if_pos rfl] at hfed
      have hone := hfed.pairs.oldest_after (g := id) (W := [(hi, lo)]) (u := 0) h.subTaken i.sub.shown
      rw [Option.map_id] at hone
      exact hone

/-- **An edge between the passes.** -/
theorem normRange_edge (h : NormMeasures S D lo hi p) (hs : p.regs.state = .range) (hlo : p.regs.minVal = lo)
    (hhi : p.regs.maxVal = hi) (hok : p.Joint i) (regs : Norm) :
    (∀ x, p.subRes F i = some x → x = F.sub hi lo ∧ NormSecond F S D lo hi [] 0 0 (p.moved F i regs)) ∧
      (p.subRes F i = none → regs.rangeIssued = (p.regs.subFire (p.cores F i) || p.regs.rangeIssued) →
        NormMeasures S D lo hi (p.moved F i regs)) := by
  have hshows := normRange_shows h i
  have hsub := normSub_moved (F := F) h.sub hok regs
  obtain ⟨hdiv, hn⟩ := normDiv_still (F := F) (i := i) h.div h.divTaken (by rw [hs]; exact Pass.noConfusion) regs
  have hpair : (p.regs.subA, p.regs.minVal) = (hi, lo) := by rw [Norm.subA, if_pos hs, hhi, hlo]
  rw [hpair] at hsub
  have htaken : (p.moved F i regs).sub.taken =
      S.length + (if NormJoin.subResReady i then p.sub.oldest i.sub else none).toList.length := by
    rw [← h.subTaken]
    rfl
  have hquiet : p.regs.rangeIssued = true → p.regs.subFire (p.cores F i) = false := by
    intro hissued
    rw [Norm.subFire, hs, hissued]
    rfl
  refine ⟨fun x hx => ?_, fun hnone hregs => ?_⟩
  · -- the range comes out: it was issued before, and it is taken
    obtain ⟨q, hq, rfl⟩ := Option.map_eq_some_iff.mp hx
    have hready := hok.measure hs (by rw [hq]; rfl)
    rw [hshows] at hq htaken
    cases hissued : p.regs.rangeIssued with
    | false => rw [hissued] at hq; cases hq
    | true =>
        rw [hissued, Bool.true_and] at hq htaken
        rw [hissued, if_pos rfl, hquiet hissued, if_neg Bool.false_ne_true, Option.toList_none] at hsub
        cases hshown : i.sub.shown with
        | false => rw [hshown] at hq; cases hq
        | true =>
            rw [hshown, if_pos rfl] at hq
            obtain rfl := Option.some_injective _ hq
            rw [hready, hshown] at htaken
            refine ⟨rfl, hsub, htaken, ?_, hn⟩
            rw [List.take_nil, List.map_nil, List.append_nil]
            exact hdiv
  · have hold : p.sub.oldest i.sub = none := Option.map_eq_none_iff.mp hnone
    rw [hold, ite_self] at htaken
    refine ⟨?_, htaken, hdiv, hn⟩
    rw [show (p.moved F i regs).regs.rangeIssued = _ from hregs]
    cases hissued : p.regs.rangeIssued with
    | false =>
        rw [hissued, if_neg Bool.false_ne_true] at hsub
        rw [Bool.or_false]
        cases hfire : p.regs.subFire (p.cores F i) with
        | false => rw [hfire, if_neg Bool.false_ne_true, Option.toList_none, List.append_nil] at hsub; exact hsub
        | true => rw [hfire] at hsub; exact hsub
    | true =>
        rw [hissued, hquiet hissued, if_neg Bool.false_ne_true, Option.toList_none, List.append_nil] at hsub
        rw [hquiet hissued]
        exact hsub

variable {w : List (BitVec 32)} {u : Nat}

/-- The word whose difference is taken. -/
def NormJoin.subtracted (w : List (BitVec 32)) (u : Nat) (i : NormPins) : Option (BitVec 32) :=
  (⟨w, u⟩ : Core (BitVec 32)).left i.sub.shown (subResReady i)

/-- **A result of the subtractor goes to both channels of the divider**, or to none. -/
theorem normDiv_pairs (h : NormSecond F S D lo hi w u n p) (hs : p.regs.state = .norm)
    (hr : p.regs.range = F.sub hi lo) (hok : p.Joint i) :
    (if i.div.aReady then p.subToDiv F i else none) = (NormJoin.subtracted w u i).map (F.sub · lo) ∧
      (if i.div.bReady then (p.subToDiv F i).map fun _ => p.regs.range else none) =
        (NormJoin.subtracted w u i).map fun _ => F.sub hi lo := by
  have hold : p.sub.oldest i.sub = ((⟨w, u⟩ : Core (BitVec 32)).oldest i.sub.shown).map fun x => (x, lo) :=
    h.sub.pairs.oldest_after (h.subTaken.trans (by rw [List.length_append]; rfl)) i.sub.shown
  have hin : p.subToDiv F i = ((⟨w, u⟩ : Core (BitVec 32)).oldest i.sub.shown).map (F.sub · lo) := by
    rw [NormJoin.subToDiv, if_pos hs, NormJoin.subRes, hold, Option.map_map]
    rfl
  have hboth := hok.divide hs
  rw [hin, hr]
  unfold NormJoin.subtracted NormJoin.subResReady Core.left
  rw [hold, Option.isSome_map] at hboth
  cases hshown : (⟨w, u⟩ : Core (BitVec 32)).oldest i.sub.shown with
  | none => rw [ite_self]; exact ⟨ite_self _, ite_self _⟩
  | some x =>
      rw [hshown] at hboth
      rw [hboth rfl]
      cases i.div.bReady <;> exact ⟨rfl, rfl⟩

/-- **An edge of the second pass.** -/
theorem normSecond_edge (h : NormSecond F S D lo hi w u n p) (hs : p.regs.state = .norm) (hlo : p.regs.minVal = lo)
    (hr : p.regs.range = F.sub hi lo) (hok : p.Joint i) (regs : Norm) :
    ∃ u' ≤ w.length, NormSecond F S D lo hi (w ++ (p.regs.issued (p.cores F i)).toList) u'
      (n + (p.divRes F i).isSome.toNat) (p.moved F i regs) := by
  have hlen : (S ++ [(hi, lo)]).length = S.length + 1 := List.length_append
  have hut : p.sub.pairs.taken = (S ++ [(hi, lo)]).length + u := h.subTaken.trans (by rw [hlen])
  have hle : ((⟨w, u⟩ : Core (BitVec 32)).edge none i.sub.shown (NormJoin.subResReady i)).taken ≤ w.length := by
    have hu : u ≤ w.length := by
      have htaken := h.sub.taken
      rw [h.subTaken, List.length_append, List.length_map, hlen] at htaken
      omega
    have hfed : (⟨w, u⟩ : Core (BitVec 32)).Fed w := ⟨rfl, hu⟩
    have hnext := (Core.fed_edge hfed none i.sub.shown (NormJoin.subResReady i)).taken
    rwa [Option.toList_none, List.append_nil] at hnext
  have htake : w.take ((⟨w, u⟩ : Core (BitVec 32)).edge none i.sub.shown (NormJoin.subResReady i)).taken =
      w.take u ++ (NormJoin.subtracted w u i).toList :=
    Core.left_take (⟨w, u⟩ : Core (BitVec 32)) none i.sub.shown (NormJoin.subResReady i)
  obtain ⟨ha, hb⟩ := normDiv_pairs h hs hr hok
  refine ⟨_, hle, ?_, ?_, ?_, ?_⟩
  · have hsub := normSub_moved (F := F) h.sub hok regs
    have hpair : p.regs.subA = word p.regs.hold p.regs.repIdx := if_neg (by rw [hs]; exact Pass.noConfusion)
    rw [hpair, hlo] at hsub
    rw [List.map_append, ← List.append_assoc, ← Option.toList_map]
    unfold Norm.issued
    cases hfire : p.regs.subFire (p.cores F i) with
    | false => rw [hfire] at hsub; exact hsub
    | true => rw [hfire] at hsub; exact hsub
  · exact (h.sub.pairs.taken_after hut none i.sub.shown (NormJoin.subResReady i)).trans (by rw [hlen])
  · rw [List.take_append_of_le_length hle, htake, List.map_append, ← List.append_assoc, ← Option.toList_map]
    refine Join.fed_edge h.div (ha.trans ?_) (hb.trans ?_) true
    · rw [Option.map_map]
      rfl
    · rw [Option.map_map]
      rfl
  · show p.div.taken + (p.div.oldest i.div).toList.length = _
    rw [h.divTaken, NormJoin.divRes, Option.isSome_map, Nat.add_assoc]
    cases p.div.oldest i.div <;> rfl

/-- **What comes out of the divider** is the result of the next word. -/
theorem normSecond_shows (h : NormSecond F S D lo hi w u n p) {x : BitVec 32} (hx : p.divRes F i = some x) :
    ∃ v, w[n]? = some v ∧ x = F.scaled lo hi v := by
  have hold : p.div.oldest i.div = _ := h.div.pairs.oldest_after h.divTaken i.div.shown
  rw [NormJoin.divRes, hold, Option.map_map] at hx
  obtain ⟨v, hv, rfl⟩ := Option.map_eq_some_iff.mp hx
  have hget : (w.take u)[n]? = some v := Core.oldest_some hv
  obtain ⟨hlt, -⟩ := List.getElem?_eq_some_iff.mp hget
  rw [List.length_take] at hlt
  rw [List.getElem?_take_of_lt (by omega)] at hget
  exact ⟨v, hget, rfl⟩

end Cores

/-! ## 3. One request after the other -/

namespace StreamRequest

/-- **The operands of the subtractor** for a request with the extremes `e`: for the range, then for its words. -/
def subPairs (r : StreamRequest) (e : BitVec 32 × BitVec 32) : List (BitVec 32 × BitVec 32) :=
  if r.data = [] then [] else (e.2, e.1) :: r.allValues.map fun x => (x, e.1)

/-- **The operands of the divider.** -/
def divPairs (F : NormFn) (r : StreamRequest) (e : BitVec 32 × BitVec 32) : List (BitVec 32 × BitVec 32) :=
  r.allValues.map fun x => (F.sub x e.1, F.sub e.2 e.1)

/-- **The response**, with those extremes. -/
def scaledAnswer (F : NormFn) (r : StreamRequest) (e : BitVec 32 × BitVec 32) : List SlotBeat :=
  r.reply (mapWords (F.scaled e.1 e.2))

end StreamRequest

/-- Requests answered, each with the extremes found. -/
abbrev NormAnswered := List (StreamRequest × (BitVec 32 × BitVec 32))

namespace NormAnswered

def subs (c : NormAnswered) : List (BitVec 32 × BitVec 32) := c.flatMap fun x => x.1.subPairs x.2
def divs (F : NormFn) (c : NormAnswered) : List (BitVec 32 × BitVec 32) := c.flatMap fun x => x.1.divPairs F x.2

/-- The extremes are those of the requests. -/
def Found (c : NormAnswered) : Prop := ∀ x ∈ c, Extremes x.1 x.2.1 x.2.2

end NormAnswered

/-- **Between requests**: the cores are empty. -/
structure NormRests (F : NormFn) (c : NormAnswered) (p : NormJoin) : Prop where
  clean : p.regs.Clean
  still : NormStill c.subs (c.divs F) p
  found : c.Found

/-- What the cores have at a stage of a request. -/
def NormIn (F : NormFn) (S D : List (BitVec 32 × BitVec 32)) : NormStage → NormJoin → Prop
  | .first, p => NormStill S D p
  | .range lo hi, p => NormMeasures S D lo hi p
  | .second lo hi w n, p => ∃ u, NormSecond F S D lo hi w u n p

/-- **Within the request `r`.** -/
def NormServes (F : NormFn) (c : NormAnswered) (r : StreamRequest) (j : Nat) (p : NormJoin)
    (out : List SlotBeat) : Prop :=
  c.Found ∧ ∃ stage, NormPos F r stage j p.regs out ∧ NormIn F c.subs (c.divs F) stage p

section Requests

variable {F : NormFn} {c : NormAnswered} {r : StreamRequest} {j n : Nat} {w : List (BitVec 32)} {lo hi : BitVec 32}
  {p : NormJoin} {i : NormPins} {out : List SlotBeat}

theorem normRests_start (F : NormFn) (linebuf : BitVec 8 → BitVec 512) (hold : BitVec 512) :
    NormRests F [] (.start linebuf hold) :=
  ⟨⟨norm_idle_reset linebuf hold, rfl, rfl⟩, ⟨Join.fed_empty, rfl, Join.fed_empty, rfl⟩,
    fun _ hx => absurd hx List.not_mem_nil⟩

/-- Where an edge takes a request. -/
def NormFollows (F : NormFn) (c : NormAnswered) (r : StreamRequest) (j : Nat) (p : NormJoin)
    (out : List SlotBeat) : Prop :=
  Follows (M := normJoin F) (NormRests F) (NormServes F) (StreamRequest.scaledAnswer F) c r j p out

/-- The request is answered. -/
theorem normFollows_done (hdone : NormDone F r lo hi j p.regs out) (hfound : c.Found)
    (hstill : NormStill (c.subs ++ r.subPairs (lo, hi)) (c.divs F ++ r.divPairs F (lo, hi)) p) :
    NormFollows F c r j p out := by
  refine Or.inr ⟨hdone.beats.trans r.beats_length.symm, (lo, hi), hdone.out, hdone.clean, ?_, fun x hx => ?_⟩
  · unfold NormAnswered.subs NormAnswered.divs
    rw [List.flatMap_append, List.flatMap_append, List.flatMap_singleton, List.flatMap_singleton]
    exact hstill
  · rcases List.mem_append.mp hx with hx | hx
    · exact hfound x hx
    · rw [List.mem_singleton.mp hx]
      exact hdone.extremes

/-- All words of the second pass came out: the cores are empty. -/
theorem normSecond_all {S D : List (BitVec 32 × BitVec 32)} {u : Nat} (hd : r.data ≠ [])
    (h : NormSecond F S D lo hi r.allValues u r.allValues.length p) :
    NormStill (S ++ r.subPairs (lo, hi)) (D ++ r.divPairs F (lo, hi)) p := by
  have hsub := h.sub.taken
  have hdiv := h.div.taken
  rw [h.subTaken, List.length_append, List.length_append, List.length_singleton, List.length_map] at hsub
  rw [h.divTaken, List.length_append, List.length_map, List.length_take] at hdiv
  obtain rfl : u = r.allValues.length := by omega
  have hpairs : S ++ r.subPairs (lo, hi) = S ++ [(hi, lo)] ++ r.allValues.map fun x => (x, lo) := by
    rw [StreamRequest.subPairs, if_neg hd, List.append_assoc]
    rfl
  have hfed := h.div
  rw [List.take_length] at hfed
  refine ⟨hpairs ▸ h.sub, ?_, hfed, ?_⟩
  · rw [hpairs, List.length_append, List.length_append, List.length_map]
    exact h.subTaken
  · rw [List.length_append, StreamRequest.divPairs, List.length_map]
    exact h.divTaken

/-- The first beat of a request is taken. -/
theorem normRests_first (h : NormRests F c p) (hok : p.Joint i) (hready : p.regs.tready = true) (r : StreamRequest)
    (t : Bool) : NormFollows F c r 1 (p.edge F (some (r.first.beat r.more.isEmpty)) t i) [] := by
  have hz : p.regs.flushCnt = 0 := by
    rw [normIdle_tready h.clean.toIdle] at hready
    exact beq_iff_eq.mp hready
  have hstill := normStill_edge (F := F) h.still h.clean.state hok
    (p.regs.edge (some (r.first.beat r.more.isEmpty)) t (p.cores F i))
  have hedge : p.regs.edge (some (r.first.beat r.more.isEmpty)) t (p.cores F i) =
      p.regs.tick (p.regs.take (r.first.beat r.more.isEmpty)) := by
    rw [norm_between h.clean.still h.clean.state h.clean.scanning, hready]
    rfl
  have hfirst := normPos_first (F := F) (r := r) h.clean hz
  rw [← hedge] at hfirst
  rcases hfirst with hpos | ⟨hnil, hdone⟩
  · exact Or.inl ⟨h.found, .first, hpos, hstill⟩
  · refine normFollows_done (p := p.edge F _ t i) hdone h.found ?_
    have hvalues : r.allValues = [] := by rw [StreamRequest.allValues, hnil]; rfl
    rw [StreamRequest.subPairs, if_pos hnil, StreamRequest.divPairs, hvalues, List.map_nil, List.append_nil,
      List.append_nil]
    exact hstill

/-- **One edge of the first pass.** -/
theorem normServes_rx (hfound : c.Found) (hpos : NormPos F r .first j p.regs out)
    (hstill : NormStill c.subs (c.divs F) p) (hok : p.Joint i) (o : Option SlotBeat) (t : Bool)
    (hoff : o = none ∨ o = r.beats[j]?) :
    NormServes F c r (j + (if p.regs.tready then o else none).toList.length) (p.edge F o t i)
      (out ++ (if p.regs.respValid && t then some p.regs.response else none).toList) := by
  have hrx : p.regs.state = .rx ∧ p.regs.respValid = false ∧ out = [] := by
    cases hpos with
    | between _ _ _ _ hs _ hq => exact ⟨hs, hq.respValid, rfl⟩
    | scan _ _ _ hs => exact ⟨hs.state, hs.still.respValid, rfl⟩
  obtain ⟨hs, hv, rfl⟩ := hrx
  have hnext := normStill_edge (F := F) hstill hs hok (p.regs.edge o t (p.cores F i))
  rw [hv]
  refine ⟨hfound, ?_⟩
  rcases normPos_rx hpos o t (p.cores F i) hoff with hfirst | ⟨lo, hi, hrange, hissued⟩
  · exact ⟨.first, hfirst, hnext⟩
  · refine ⟨.range lo hi, hrange, ?_⟩
    show NormHas (if (p.edge F o t i).regs.rangeIssued then _ else _) _ _ _ _
    rw [show (p.edge F o t i).regs.rangeIssued = false from hissued]
    exact hnext

/-- **One edge between the passes.** -/
theorem normServes_range (hfound : c.Found) (hpos : NormPos F r (.range lo hi) j p.regs out)
    (hm : NormMeasures c.subs (c.divs F) lo hi p) (hok : p.Joint i) (o : Option SlotBeat) (t : Bool) :
    NormServes F c r j (p.edge F o t i) (out ++ (if p.regs.respValid && t then some p.regs.response else none).toList) := by
  obtain ⟨hrange, rfl⟩ : NormRange r lo hi p.regs ∧ out = [] := by
    cases hpos with
    | range _ _ _ _ hr => exact ⟨hr, rfl⟩
  obtain ⟨hout, hwait⟩ := normRange_edge (F := F) hm hrange.state hrange.minVal hrange.maxVal hok
    (p.regs.edge o t (p.cores F i))
  have hnext := normPos_range hpos (c := p.cores F i) (fun hv => by
    obtain ⟨x, hx⟩ := Option.isSome_iff_exists.mp (show (p.subRes F i).isSome = true from hv)
    show (p.subRes F i).getD 0 = _
    rw [hx]
    exact (hout x hx).1) o t
  have hvalid : (p.cores F i).subResValid = (p.subRes F i).isSome := rfl
  rw [hrange.still.respValid]
  refine ⟨hfound, ?_⟩
  cases hres : p.subRes F i with
  | none =>
      rw [hvalid, hres, Option.isSome_none, if_neg Bool.false_ne_true] at hnext
      exact ⟨.range lo hi, hnext.1, hwait hres hnext.2⟩
  | some x =>
      rw [hvalid, hres, Option.isSome_some, if_pos rfl] at hnext
      exact ⟨.second lo hi [] 0, hnext, 0, (hout x hres).2⟩

/-- **One edge of the second pass.** -/
theorem normServes_second (hfound : c.Found) (hpos : NormPos F r (.second lo hi w n) j p.regs out) {u : Nat}
    (hsecond : NormSecond F c.subs (c.divs F) lo hi w u n p) (hok : p.Joint i) (o : Option SlotBeat) (t : Bool) :
    NormFollows F c r j (p.edge F o t i)
      (out ++ (if p.regs.respValid && t then some p.regs.response else none).toList) := by
  obtain ⟨k, hplays⟩ := normPos_replays hpos
  have howed := normPos_owed hpos
  obtain ⟨u', -, hnext⟩ := normSecond_edge hsecond hplays.state hplays.minVal hplays.range hok
    (p.regs.edge o t (p.cores F i))
  -- what comes out of the divider is owed
  have hfire : p.regs.resultFire (p.cores F i) = (p.divRes F i).isSome := by
    show ((p.divRes F i).isSome && p.regs.outstanding != 0) = _
    cases hres : p.divRes F i with
    | none => rfl
    | some x =>
        obtain ⟨v, hv, -⟩ := normSecond_shows hsecond hres
        have hlt := (List.getElem?_eq_some_iff.mp hv).1
        refine bne_iff_ne.mpr fun hzero => ?_
        rw [hzero] at howed
        have hall : n + 0 = w.length := howed
        omega
  rw [← hfire] at hnext
  have hres : p.regs.resultFire (p.cores F i) = true →
      ∀ x, w[n]? = some x → (p.cores F i).divResData = F.scaled lo hi x := by
    intro hf x hx
    rw [hfire] at hf
    obtain ⟨y, hy⟩ := Option.isSome_iff_exists.mp hf
    obtain ⟨v, hv, rfl⟩ := normSecond_shows hsecond hy
    obtain rfl : v = x := Option.some_injective _ (hv.symm.trans hx)
    show (p.divRes F i).getD 0 = _
    rw [hy]
    rfl
  rcases normPos_second hpos hres o t with hmore | ⟨hw, hn, hdone⟩
  · exact Or.inl ⟨hfound, _, hmore, u', hnext⟩
  · refine normFollows_done (p := p.edge F o t i) hdone hfound (normSecond_all (normPos_begun hpos).2.2.2 (u := u') ?_)
    rw [← hn, ← hw]
    exact hnext

/-- **`norm` answers one request after the other**, at edges that are joint. -/
def normFeeding (F : NormFn) : Feeding (normJoin F) NormJoin.Joint (StreamRequest.scaledAnswer F) where
  Rests := NormRests F
  Serves := NormServes F
  blind {p t} o i h := congrArg (NormJoin.moved F p i) (norm_blind h o t (p.cores F i))
  mute _ _ _ := rfl
  silent {_ p} t h := by
    show (if p.regs.respValid && t then some p.regs.response else none) = none
    rw [h.clean.respValid]
    rfl
  waits {c p i} t h hok := by
    refine ⟨?_, normStill_edge h.still h.clean.state hok _, h.found⟩
    have hedge := norm_between h.clean.still h.clean.state h.clean.scanning none t (p.cores F i)
    rw [ite_self] at hedge
    show (p.regs.edge none t (p.cores F i)).Clean
    rw [hedge]
    exact ⟨⟨h.clean.state, h.clean.scanning, h.clean.nlines, h.clean.frameActive, h.clean.respValid,
      h.clean.outstanding, h.clean.packIdx⟩, h.clean.maxKey, h.clean.minKey⟩
  begins {_ _ _ t} r h hok hready := normRests_first h hok hready r t
  goes {c r j p out i} o t h hok hoff := by
    obtain ⟨hfound, stage, hpos, hin⟩ := h
    cases stage with
    | first => exact Or.inl (normServes_rx hfound hpos hin hok o t hoff)
    | range lo hi =>
        have hready : p.regs.tready = false := by
          cases hpos with
          | range _ _ _ _ hr => rw [Norm.tready, hr.state]; rfl
        have hnext := normServes_range hfound hpos hin hok o t
        rw [SlotModule.taken, show (normJoin F).tready p t = false from hready]
        exact Or.inl hnext
    | second lo hi w n =>
        obtain ⟨u, hsecond⟩ := hin
        obtain ⟨k, hplays⟩ := normPos_replays hpos
        have hready : p.regs.tready = false := by rw [Norm.tready, hplays.state]; rfl
        rw [SlotModule.taken, show (normJoin F).tready p t = false from hready]
        exact normServes_second hfound hpos hsecond hok o t
  full {_ r _ _ _} _ h hj := by
    obtain ⟨-, stage, hpos, -⟩ := h
    rw [r.beats_length] at hj
    exact normPos_full hpos hj

end Requests

end Frac.Slots
