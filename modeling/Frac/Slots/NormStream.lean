/-
  File:      Frac/Slots/NormStream.lean
  Subject:   `norm.v` over cores of fixed latency that cannot be reset, on every stream of requests and
             with a reset at any edge.

  The request is held in a buffer while its words are compared, then the subtractor measures the range,
  and the lines are played back through the same subtractor and the divider. A result of the subtractor
  is not counted: it is the range because nothing else was in the core.

  * `NormPipe` -- the module with its cores; `NormPipe.Drained` -- the cores empty in so many edges;
  * `NormFlight` -- **which word is where**;
  * `norm_stream` -- **every request is normalised with its own extremes**, whatever the gaps, stalls and
    resets.
-/
import Mathlib.Order.Lattice.Nat
import Frac.Slots.NormLines
import Frac.Slots.Resets

namespace Frac.Slots

open Bits Clocked

/-! ## 1. The module with its cores -/

/-- The module with its cores: pipelines that are always ready, of fixed latency and without a reset. -/
structure NormPipe (ls ld : Nat) where
  regs : Norm
  sub : Delay ls (BitVec 32)
  div : Delay ld (BitVec 32)

namespace NormPipe

variable {ls ld : Nat} (F : NormFn)

/-- What the cores drive. -/
def cores (p : NormPipe ls ld) : NormCores where
  subAReady := true
  subBReady := true
  subResValid := p.sub.last.isSome
  subResData := p.sub.last.getD 0
  divResValid := p.div.last.isSome
  divResData := p.div.last.getD 0

/-- `sub_a`, where `sub_fire`. -/
def issued (p : NormPipe ls ld) : Option (BitVec 32) :=
  if p.regs.subFire p.cores then
    some (if p.regs.state = .range then p.regs.maxVal else word p.regs.hold p.regs.repIdx)
  else none

/-- What enters the divider, `sub_to_div`. -/
def divided (p : NormPipe ls ld) : Option (BitVec 32) :=
  if p.regs.state = .norm then p.sub.last.map fun x => F.div x p.regs.range else none

/-- The cores after an edge; they do not see `rst`. -/
def moved (p : NormPipe ls ld) (regs : Norm) : NormPipe ls ld where
  regs := regs
  sub := p.sub.shift (p.issued.map fun x => F.sub x p.regs.minVal)
  div := p.div.shift (p.divided F)

/-- The clock edge with `rst` low. -/
def edge (p : NormPipe ls ld) (o : Option SlotBeat) (t : Bool) : NormPipe ls ld :=
  p.moved F (p.regs.edge o t p.cores)

/-- The clock edge with `rst` high. -/
def reset (p : NormPipe ls ld) : NormPipe ls ld := p.moved F (Norm.reset p.regs.linebuf p.regs.hold)

/-- The cores are empty in `m` edges, if nothing is issued. -/
structure Drained (p : NormPipe ls ld) (m : Nat) : Prop where
  sub : p.sub.Within (m - ld)
  div : p.div.Within m

/-- No request is under way, and the cores are empty once the module has counted down. -/
structure Idle (p : NormPipe ls ld) : Prop where
  regs : p.regs.Clean
  drained : p.Drained p.regs.flushCnt.toNat

end NormPipe

/-- The module as a slot module: there is nothing that the cores could hold back. -/
def normPipe (F : NormFn) (ls ld : Nat) : SlotModule where
  State := NormPipe ls ld
  Cores := Unit
  Idle := NormPipe.Idle
  tready p _ := p.regs.tready
  edge p o t _ := p.edge F o t
  sent p _ t := if p.regs.respValid && t then some p.regs.response else none
  willing _ t _ := t

/-! ## 2. Draining -/

section Drain

variable {ls ld : Nat} {F : NormFn} {p : NormPipe ls ld}

theorem normDrained_any {m : Nat} (h : ls + ld ≤ m) : p.Drained m :=
  ⟨Delay.within_of_le _ (by omega), Delay.within_of_le _ (by omega)⟩

theorem normDrained_mono {m m' : Nat} (h : p.Drained m) (hle : m ≤ m') : p.Drained m' :=
  ⟨Delay.within_mono h.sub (by omega), Delay.within_mono h.div hle⟩

theorem normDrained_zero : p.Drained 0 ↔ p.sub.items = [] ∧ p.div.items = [] := by
  refine ⟨fun h => ⟨Delay.within_zero_iff.mp ?_, Delay.within_zero_iff.mp h.div⟩, fun h =>
    ⟨?_, Delay.within_zero_iff.mpr h.2⟩⟩
  · have hsub := h.sub
    rwa [Nat.zero_sub] at hsub
  · rw [Nat.zero_sub]
    exact Delay.within_zero_iff.mpr h.1

/-- **The cores empty by themselves** while nothing is issued. -/
theorem normDrained_moved {m : Nat} (h : p.Drained m) (hi : p.issued = none) (regs : Norm) :
    (p.moved F regs).Drained (m - 1) := by
  refine ⟨?_, ?_⟩
  · rw [show m - 1 - ld = m - ld - 1 by omega]
    show (p.sub.shift (p.issued.map _)).Within _
    rw [hi]
    exact Delay.within_shift h.sub
  · refine Delay.within_series h.sub h.div fun hlast => ?_
    rw [NormPipe.divided, hlast]
    exact ite_self _

/-- Nothing is issued in the first pass. -/
theorem rx_issued (h : p.regs.state = .rx) : p.issued = none := by
  rw [NormPipe.issued, Norm.subFire, h]
  rfl

end Drain

/-! ## 3. Words on their way -/

/-- **Which word is where**: the words `ws` in flight, oldest first, are in the divider and in the
    subtractor. -/
def NormFlight (F : NormFn) (least greatest : BitVec 32) (ws sub div : List (BitVec 32)) : Prop :=
  ∃ L1 L2, ws = L1 ++ L2 ∧ div = L1.map (F.scaled least greatest) ∧ sub = L2.map (F.sub · least)

/-- **One edge of the words in flight**: the word `x` is issued, and what comes out of the divider belongs
    to the oldest. -/
theorem normFlight_step {F : NormFn} {least greatest : BitVec 32} {ws sub div : List (BitVec 32)}
    (h : NormFlight F least greatest ws sub div) {x subOut divOut : Option (BitVec 32)}
    {sub' div' : List (BitVec 32)} (hsub : subOut.toList ++ sub' = sub ++ (x.map (F.sub · least)).toList)
    (hdiv : divOut.toList ++ div' = div ++ (subOut.map (F.div · (F.sub greatest least))).toList) :
    ∃ (y : Option (BitVec 32)) (ws' : List (BitVec 32)), ws ++ x.toList = y.toList ++ ws' ∧
      divOut = y.map (F.scaled least greatest) ∧ NormFlight F least greatest ws' sub' div' := by
  obtain ⟨L1, L2, rfl, rfl, rfl⟩ := h
  obtain ⟨y2, L2', h2, rfl, rfl⟩ := stage_moves hsub
  rw [Option.map_map] at hdiv
  obtain ⟨y1, L1', h1, hy1, rfl⟩ := stage_moves (g := F.scaled least greatest) hdiv
  refine ⟨y1, L1' ++ L2', ?_, hy1, L1', L2', rfl, rfl, rfl⟩
  calc L1 ++ L2 ++ x.toList = L1 ++ (L2 ++ x.toList) := List.append_assoc ..
    _ = L1 ++ y2.toList ++ L2' := by rw [h2, List.append_assoc]
    _ = y1.toList ++ (L1' ++ L2') := by rw [h1, List.append_assoc]

/-- With no word in flight the cores are empty. -/
theorem normFlight_nil {F : NormFn} {least greatest : BitVec 32} {sub div : List (BitVec 32)} :
    NormFlight F least greatest [] sub div ↔ sub = [] ∧ div = [] := by
  refine ⟨fun ⟨L1, L2, hnil, hdiv, hsub⟩ => ?_, fun ⟨hsub, hdiv⟩ => ⟨[], [], rfl, hdiv, hsub⟩⟩
  obtain ⟨rfl, rfl⟩ := List.append_eq_nil_iff.mp hnil.symm
  exact ⟨hsub, hdiv⟩

/-! ## 4. A request -/

/-- **The response of `norm` to a request.** -/
def StreamRequest.normAnswer (F : NormFn) (r : StreamRequest) : List SlotBeat :=
  r.reply (mapWords (F.scaled r.least r.greatest))

/-- **Where the request `r` is** once `j` of its beats are taken and `out` is sent, and what is in the
    cores: nothing, the range, or the words issued and not packed. -/
inductive NormAt {ls ld : Nat} (F : NormFn) (r : StreamRequest) :
    Nat → NormPipe ls ld → List SlotBeat → Prop where
  | fresh {p} (hp : p.Idle) : NormAt F r 0 p []
  | first {j p out} (hpos : NormPos F r .first j p.regs out) (hc : p.sub.items = [] ∧ p.div.items = []) :
      NormAt F r j p out
  | range {j p out lo hi} (hpos : NormPos F r (.range lo hi) j p.regs out)
      (hsub : p.sub.items = if p.regs.rangeIssued then [F.sub hi lo] else []) (hdiv : p.div.items = []) :
      NormAt F r j p out
  | second {j p out lo hi w n} (hpos : NormPos F r (.second lo hi w n) j p.regs out)
      (hf : NormFlight F lo hi (w.drop n) p.sub.items p.div.items) : NormAt F r j p out
  | done {p out} (hp : p.Idle) (hout : out = r.normAnswer F) : NormAt F r r.lines.length p out

section Request

variable {ls ld : Nat} {F : NormFn} {p : NormPipe ls ld} {r : StreamRequest} {j : Nat} {out : List SlotBeat}
  {lo hi : BitVec 32} {w : List (BitVec 32)} {n : Nat}

/-- The module stays idle. -/
theorem normIdle_tick (h : p.Idle) : (p.moved F (p.regs.tick p.regs)).Idle := by
  obtain ⟨⟨h1, h2, h3, h4, h5, h6, h7⟩, h8, h9⟩ := h.regs
  have hdrained := normDrained_moved (F := F) h.drained (rx_issued h1) (p.regs.tick p.regs)
  rw [← tick_flush p.regs p.regs] at hdrained
  exact ⟨⟨⟨h1, h2, h3, h4, h5, h6, h7⟩, h8, h9⟩, hdrained⟩

/-- Cores that are empty stay so while nothing is issued. -/
theorem normEmpty_moved (h : p.sub.items = [] ∧ p.div.items = []) (hi : p.issued = none) (regs : Norm) :
    (p.moved F regs).sub.items = [] ∧ (p.moved F regs).div.items = [] :=
  normDrained_zero.mp (normDrained_moved (normDrained_zero.mpr h) hi regs)

/-- The first line of a request is taken; the cores are empty. -/
theorem normAt_first (h : p.Idle) (hz : p.regs.flushCnt = 0) (hfits : NormFits r) :
    NormAt F r 1 (p.moved F (p.regs.tick (p.regs.take (r.first.beat r.more.isEmpty)))) [] := by
  have hdrained := h.drained
  rw [hz] at hdrained
  have hempty := normEmpty_moved (F := F) (normDrained_zero.mp hdrained) (rx_issued h.regs.state)
    (p.regs.tick (p.regs.take (r.first.beat r.more.isEmpty)))
  rcases normPos_first (F := F) (r := r) h.regs hz with hpos | ⟨hnil, -⟩
  · exact .first hpos hempty
  · exact absurd hnil hfits.ne_nil

/-- What is issued between the passes. -/
theorem range_issued (h : NormRange r lo hi p.regs) : p.issued = if p.regs.rangeIssued then none else some hi := by
  rw [NormPipe.issued, Norm.subFire, h.state, h.maxVal]
  cases p.regs.rangeIssued <;> rfl

/-- The range goes into the subtractor and comes out of it once. -/
theorem range_moves (hs : 0 < ls) (h : NormRange r lo hi p.regs)
    (hsub : p.sub.items = if p.regs.rangeIssued then [F.sub hi lo] else []) (hdiv : p.div.items = []) (regs : Norm) :
    p.sub.last.toList ++ (p.moved F regs).sub.items = [F.sub hi lo] ∧ (p.moved F regs).div.items = [] := by
  have hmoved := Delay.shift_items p.sub hs (p.issued.map fun x => F.sub x p.regs.minVal)
  refine ⟨?_, ?_⟩
  · refine hmoved.trans ?_
    rw [range_issued h, h.minVal, hsub]
    cases p.regs.rangeIssued <;> rfl
  · have hwithin := Delay.within_shift (Delay.within_zero_iff.mpr hdiv)
    rw [← Delay.within_zero_iff]
    show (p.div.shift (p.divided F)).Within 0
    rw [NormPipe.divided, h.state]
    exact hwithin

/-- **An edge between the passes.** -/
theorem normAt_range (hs : 0 < ls) (hpos : NormPos F r (.range lo hi) j p.regs out)
    (hsub : p.sub.items = if p.regs.rangeIssued then [F.sub hi lo] else []) (hdiv : p.div.items = [])
    (o : Option SlotBeat) (t : Bool) : NormAt F r j (p.edge F o t) [] := by
  have hrange : NormRange r lo hi p.regs := by
    cases hpos with
    | range _ _ _ _ hr => exact hr
  obtain ⟨hall, hnone⟩ := range_moves hs hrange hsub hdiv (p.regs.edge o t p.cores)
  cases hlast : p.sub.last with
  | none =>
      have hv : p.cores.subResValid = false := by show p.sub.last.isSome = false; rw [hlast]; rfl
      have hnext := normPos_range hpos (c := p.cores) (fun e => by rw [hv] at e; cases e) o t
      rw [hv, if_neg Bool.false_ne_true] at hnext
      refine .range hnext.1 ?_ hnone
      have hissued : (p.edge F o t).regs.rangeIssued = true := by
        refine hnext.2.trans ?_
        rw [Norm.subFire, hrange.state]
        cases p.regs.rangeIssued <;> rfl
      rw [hlast] at hall
      rw [hissued]
      exact hall
  | some v =>
      have hv : p.cores.subResValid = true := by show p.sub.last.isSome = true; rw [hlast]; rfl
      rw [hlast] at hall
      obtain ⟨rfl, hempty⟩ := List.cons.inj hall
      have hdata : p.cores.subResData = F.sub hi lo := by show p.sub.last.getD 0 = _; rw [hlast]; rfl
      have hnext := normPos_range hpos (c := p.cores) (fun _ => hdata) o t
      rw [hv, if_pos rfl] at hnext
      exact .second hnext (normFlight_nil.mpr ⟨hempty, hnone⟩)

/-- What comes out of the divider is owed, and is the result of the next word to be packed; the words in
    flight move on. -/
theorem normFlight_serves (hs : 0 < ls) (hd : 0 < ld) (hpos : NormPos F r (.second lo hi w n) j p.regs out)
    (h : NormFlight F lo hi (w.drop n) p.sub.items p.div.items) (regs : Norm) :
    (p.regs.resultFire p.cores = true → ∀ x, w[n]? = some x → p.cores.divResData = F.scaled lo hi x) ∧
      NormFlight F lo hi ((w ++ (p.regs.issued p.cores).toList).drop (n + (p.regs.resultFire p.cores).toNat))
        (p.moved F regs).sub.items (p.moved F regs).div.items := by
  obtain ⟨k, hplays⟩ := normPos_replays hpos
  have howed := normPos_owed hpos
  have hnorm : p.regs.state ≠ .range := by rw [hplays.state]; exact Pass.noConfusion
  have hissued : p.issued = p.regs.issued p.cores := by rw [NormPipe.issued, Norm.issued, if_neg hnorm]
  have hsub := Delay.shift_items p.sub hs (p.issued.map fun x => F.sub x p.regs.minVal)
  have hdiv := Delay.shift_items p.div hd (p.divided F)
  have hdivided : p.divided F = p.sub.last.map fun x => F.div x (F.sub hi lo) := by
    rw [NormPipe.divided, if_pos hplays.state, hplays.range]
  rw [hplays.minVal, hissued] at hsub
  rw [hdivided] at hdiv
  have hmoved : (p.moved F regs).sub.items = (p.sub.shift ((p.regs.issued p.cores).map (F.sub · lo))).items := by
    rw [← hissued, ← hplays.minVal]
    rfl
  have hmoved' : (p.moved F regs).div.items = (p.div.shift (p.sub.last.map (F.div · (F.sub hi lo)))).items := by
    rw [← hdivided]
    rfl
  rw [hmoved, hmoved']
  obtain ⟨y, ws', hws, hlast, hflight⟩ := normFlight_step h hsub hdiv
  have hidle : w.drop n = [] → p.div.last = none := by
    intro hnone
    rw [hnone, normFlight_nil] at h
    exact Delay.last_within_zero (Delay.within_zero_iff.mpr h.2)
  obtain ⟨hnext, hrest⟩ := next_result howed hws hlast hidle
  exact ⟨hnext, hrest ▸ hflight⟩

/-- **An edge of the second pass.** -/
theorem normAt_second (hs : 0 < ls) (hd : 0 < ld) (hfits : NormFits r)
    (hpos : NormPos F r (.second lo hi w n) j p.regs out)
    (h : NormFlight F lo hi (w.drop n) p.sub.items p.div.items) (o : Option SlotBeat) (t : Bool) :
    NormAt F r j (p.edge F o t)
      (out ++ (if p.regs.respValid && t then some p.regs.response else none).toList) := by
  obtain ⟨hres, hflight⟩ := normFlight_serves hs hd hpos h (p.regs.edge o t p.cores)
  rcases normPos_second hpos hres o t with hnext | ⟨hw, hn, hdone⟩
  · exact .second hnext hflight
  · rw [hw, hn, List.drop_length, normFlight_nil] at hflight
    obtain ⟨rfl, rfl⟩ := hdone.extremes hfits
    rw [hdone.beats]
    exact .done ⟨hdone.clean, normDrained_mono (normDrained_zero.mpr hflight) (Nat.zero_le _)⟩ hdone.out

end Request

/-! ## 5. The service -/

namespace NormPipe

variable {ls ld : Nat}

/-- The edges after which the cores are empty. -/
noncomputable def drainTime (p : NormPipe ls ld) : Nat := sInf {m | p.Drained m}

/-- What is left of a line of the second pass, in edges. -/
noncomputable def lineRank (p : NormPipe ls ld) : Nat :=
  if p.regs.respValid then 1
  else if p.regs.issuing then 16 - p.regs.repIdx.toNat + (ls + ld) + (if p.regs.repLoaded then 3 else 4)
  else p.drainTime + 2

/-- What is left of the request, but for the countdown. -/
noncomputable def passRank (r : StreamRequest) (j : Nat) (p : NormPipe ls ld) : Nat :=
  match p.regs.state with
  | .rx => 20 * (r.lines.length - j) + (if p.regs.scanning then 16 - p.regs.scanIdx.toNat else 0) +
      (if p.regs.scanning || decide (j < r.lines.length) then 200 * r.data.length + (ls + ld) + 3 else 0)
  | .range => 200 * r.data.length + (if p.regs.rangeIssued then p.drainTime + 1 else ls + ld + 2)
  | .norm => 200 * (r.data.length - 1 - p.regs.repLine.toNat) + p.lineRank

noncomputable def rank (r : StreamRequest) (j : Nat) (p : NormPipe ls ld) : Nat :=
  p.regs.flushCnt.toNat + p.passRank r j

end NormPipe

section Service

variable {ls ld : Nat} {F : NormFn} {p : NormPipe ls ld} {r : StreamRequest}

theorem normDrain_drained (p : NormPipe ls ld) : p.Drained p.drainTime :=
  Nat.sInf_mem (s := {m | p.Drained m}) ⟨ls + ld, normDrained_any (Nat.le_refl _)⟩

theorem normDrain_le {m : Nat} (h : p.Drained m) : p.drainTime ≤ m := Nat.sInf_le h

theorem normDrain_all (p : NormPipe ls ld) : p.drainTime ≤ ls + ld :=
  normDrain_le (normDrained_any (Nat.le_refl _))

/-- The cores are empty one edge earlier, if nothing is issued. -/
theorem normDrain_moved (hi : p.issued = none) (regs : Norm) : (p.moved F regs).drainTime ≤ p.drainTime - 1 :=
  normDrain_le (normDrained_moved (normDrain_drained p) hi regs)

/-- With something in a core it takes an edge at least. -/
theorem normDrain_pos (h : ¬ (p.sub.items = [] ∧ p.div.items = [])) : 0 < p.drainTime := by
  refine Nat.pos_of_ne_zero fun hzero => h (normDrained_zero.mp ?_)
  have hdrained := normDrain_drained p
  rwa [hzero] at hdrained

theorem normLineRank_le (p : NormPipe ls ld) : p.lineRank ≤ 20 + (ls + ld) := by
  have hdrain := normDrain_all p
  unfold NormPipe.lineRank
  split_ifs <;> omega

/-- **A line under way gets on at every edge**: once its words are issued, the cores are not empty. -/
theorem normLoad_rank {lo hi : BitVec 32} {k : Nat} {line : BitVec 512} (h : NormLoad F r lo hi k line p.regs)
    (hbusy : p.regs.issuing = false → 0 < p.drainTime) (o : Option SlotBeat) (t : Bool) :
    (p.edge F o t).lineRank < p.lineRank := by
  have hresp : (p.regs.respValid && t) = false := by rw [h.respValid]; rfl
  obtain ⟨hstep, -⟩ := norm_step h.state h.scanning hresp o p.cores
  have hall := normDrain_all (p.edge F o t)
  have hidx := p.regs.repIdx.isLt
  have hfire : p.regs.subFire p.cores = (p.regs.issuing && p.regs.repLoaded) := by
    rw [subFire_norm h.state]
    show (p.regs.issuing && p.regs.repLoaded && true && true) = _
    rw [Bool.and_true, Bool.and_true]
  have hloaded : (p.edge F o t).regs.repLoaded = true := by
    show (p.regs.edge o t p.cores).repLoaded = true
    rw [hstep.repLoaded]
    cases hl : p.regs.repLoaded with
    | true => exact Bool.or_true _
    | false => rw [h.loaded hl]; rfl
  have hlow : (p.edge F o t).regs.issuing = false → (p.edge F o t).lineRank ≤ (p.edge F o t).drainTime + 2 := by
    intro hi
    unfold NormPipe.lineRank
    rw [hi]
    split_ifs <;> first | contradiction | omega
  have hhigh : (p.edge F o t).regs.issuing = true →
      (p.edge F o t).lineRank ≤ 16 - (p.edge F o t).regs.repIdx.toNat + (ls + ld) + 3 := by
    intro hi
    unfold NormPipe.lineRank
    rw [hi, hloaded]
    split_ifs <;> first | contradiction | omega
  cases hi : p.regs.issuing with
  | true =>
      have hrank : p.lineRank =
          16 - p.regs.repIdx.toNat + (ls + ld) + (if p.regs.repLoaded then 3 else 4) := by
        rw [NormPipe.lineRank, h.respValid, hi]
        rfl
      rw [hi, Bool.true_and] at hfire
      have hcount := issuedWords_step hstep.words (subFire_issuing h.state)
      rw [hi, hfire] at hcount
      cases hi' : (p.edge F o t).regs.issuing with
      | true =>
          have hhigh' := hhigh hi'
          have hi'' : (p.regs.edge o t p.cores).issuing = true := hi'
          have hlt := (p.edge F o t).regs.repIdx.isLt
          rw [hi''] at hcount
          have hnext : (p.edge F o t).regs.repIdx.toNat = p.regs.repIdx.toNat + p.regs.repLoaded.toNat := hcount
          rw [hrank]
          cases hl : p.regs.repLoaded with
          | true =>
              rw [hl, Bool.toNat_true] at hnext
              rw [if_pos rfl]
              omega
          | false =>
              rw [hl, Bool.toNat_false] at hnext
              rw [if_neg Bool.false_ne_true]
              omega
      | false =>
          have hlow' := hlow hi'
          rw [hrank]
          split <;> omega
  | false =>
      have hrank : p.lineRank = p.drainTime + 2 := by
        rw [NormPipe.lineRank, h.respValid, hi]
        rfl
      have hissued : p.issued = none := by
        rw [NormPipe.issued, hfire, hi]
        rfl
      have hnext : (p.edge F o t).regs.issuing = false := by
        have hissuing := hstep.words.issuing
        rw [hi, Bool.and_false] at hissuing
        exact hissuing
      have hless : (p.edge F o t).drainTime ≤ p.drainTime - 1 := normDrain_moved hissued _
      have hpos := hbusy hi
      have hlow' := hlow hnext
      omega

theorem normPipe_flush (p : NormPipe ls ld) (o : Option SlotBeat) (t : Bool) :
    (p.edge F o t).regs.flushCnt.toNat = p.regs.flushCnt.toNat - 1 :=
  norm_flush p.regs o t p.cores

theorem take_state (s : Norm) (b : SlotBeat) : (s.take b).state = s.state := by
  unfold Norm.take
  split_ifs <;> rfl

/-- What is left between two lines. -/
theorem passRank_rx {j : Nat} (hs : p.regs.state = .rx) (hc : p.regs.scanning = false) (hj : j < r.lines.length) :
    p.passRank r j = 20 * (r.lines.length - j) + 0 + (200 * r.data.length + (ls + ld) + 3) := by
  rw [NormPipe.passRank, hs, hc, decide_eq_true hj]
  rfl

/-- A line that is taken is progress. -/
theorem normTake_rank {j : Nat} {s : Norm} (hs : s.state = .rx) (hj : j < r.lines.length) (b : SlotBeat) :
    (p.moved F (s.tick (s.take b))).passRank r (j + 1) <
      20 * (r.lines.length - j) + 0 + (200 * r.data.length + (ls + ld) + 3) := by
  have hstate : (p.moved F (s.tick (s.take b))).regs.state = .rx := (take_state s b).trans hs
  have hrank : (p.moved F (s.tick (s.take b))).passRank r (j + 1) ≤
      20 * (r.lines.length - (j + 1)) + 16 + (200 * r.data.length + (ls + ld) + 3) := by
    rw [NormPipe.passRank, hstate]
    simp only
    split_ifs <;> omega
  omega

/-- And so is a word compared. -/
theorem normScan_rank {j k : Nat} {line : BitVec 512} (h : NormScan r k line p.regs) :
    (p.moved F (p.regs.tick (p.regs.scan p.regs))).passRank r j < p.passRank r j := by
  have hx := p.regs.scanIdx.isLt
  have hrank : p.passRank r j = 20 * (r.lines.length - j) + (16 - p.regs.scanIdx.toNat) +
      (200 * r.data.length + (ls + ld) + 3) := by
    rw [NormPipe.passRank, h.state, h.scanning]
    rfl
  rw [hrank]
  by_cases hend : p.regs.scanIdx = 15
  · have hscan : (p.moved F (p.regs.tick (p.regs.scan p.regs))).regs.scanning = false := if_pos hend
    by_cases hseen : p.regs.lastSeen = true
    · have hstate : (p.moved F (p.regs.tick (p.regs.scan p.regs))).regs.state = .range := if_pos ⟨hend, hseen⟩
      have hissued : (p.moved F (p.regs.tick (p.regs.scan p.regs))).regs.rangeIssued = false :=
        if_pos ⟨hend, hseen⟩
      rw [NormPipe.passRank, hstate, hissued]
      show 200 * r.data.length + (ls + ld + 2) < _
      omega
    · have hstate : (p.moved F (p.regs.tick (p.regs.scan p.regs))).regs.state = .rx :=
        (if_neg fun e => hseen e.2).trans h.state
      rw [NormPipe.passRank, hstate, hscan]
      show 20 * (r.lines.length - j) + 0 + _ < _
      split <;> omega
  · have hscan : (p.moved F (p.regs.tick (p.regs.scan p.regs))).regs.scanning = true :=
      (if_neg hend).trans h.scanning
    have hstate : (p.moved F (p.regs.tick (p.regs.scan p.regs))).regs.state = .rx :=
      (if_neg fun e => hend e.1).trans h.state
    have hne : p.regs.scanIdx.toNat ≠ 15 := fun e => hend (BitVec.eq_of_toNat_eq e)
    have hidx : (p.moved F (p.regs.tick (p.regs.scan p.regs))).regs.scanIdx.toNat = p.regs.scanIdx.toNat + 1 :=
      toNat_succ (x := p.regs.scanIdx) (by omega)
    rw [NormPipe.passRank, hstate, hscan, hidx]
    show 20 * (r.lines.length - j) + (16 - (p.regs.scanIdx.toNat + 1)) + (200 * r.data.length + (ls + ld) + 3) < _
    omega

/-- **What an edge leaves to do**: it is never more, and less if the edge holds nothing back. -/
def NormPipe.Lowers (F : NormFn) (r : StreamRequest) (j : Nat) (p : NormPipe ls ld) (o : Option SlotBeat)
    (t : Bool) : Prop :=
  (p.edge F o t).rank r (j + (if p.regs.tready then o else none).toList.length) ≤ p.rank r j ∧
    (o = r.beats[j]? → t = true →
      (p.edge F o t).rank r (j + (if p.regs.tready then o else none).toList.length) < p.rank r j)

/-- The pass gets on, and there is no countdown. -/
theorem lowers_of_lt {j : Nat} {o : Option SlotBeat} {t : Bool}
    (h : (p.edge F o t).passRank r (j + (if p.regs.tready then o else none).toList.length) < p.passRank r j) :
    NormPipe.Lowers F r j p o t := by
  have hflush := normPipe_flush (F := F) p o t
  have hlt : (p.edge F o t).rank r (j + (if p.regs.tready then o else none).toList.length) < p.rank r j := by
    rw [NormPipe.rank, NormPipe.rank]
    omega
  exact ⟨Nat.le_of_lt hlt, fun _ _ => hlt⟩

/-- The first pass. -/
theorem normRx_rank (hfits : NormFits r) {j : Nat} {out : List SlotBeat} (h : NormPos F r .first j p.regs out)
    (o : Option SlotBeat) (t : Bool) : NormPipe.Lowers F r j p o t := by
  have hlen : r.lines.length = r.headers + r.data.length := StreamRequest.lines_length
  have hsize := hfits.lines
  cases h with
  | between h0 hj hk ha hs hc hq hz hb hx =>
      have hready : p.regs.tready = true := by
        have hroom : p.regs.nlines < 256 := by
          show p.regs.nlines.toNat < 256
          rw [hb.nlines]
          omega
        rw [Norm.tready, hs, hc, hz, decide_eq_true hroom]
        rfl
      have hedge := norm_between hq hs hc o t p.cores
      rw [hready, if_pos rfl] at hedge
      have hmove : p.edge F o t = p.moved F _ := congrArg (p.moved F) hedge
      cases o with
      | none =>
          have hflush := normPipe_flush (F := F) p none t
          have hsame : (p.edge F none t).passRank r j = p.passRank r j := by
            rw [passRank_rx hs hc (by omega), hmove]
            exact passRank_rx hs hc (by omega)
          refine ⟨?_, fun hnone => ?_⟩
          · rw [ite_self]
            show (p.edge F none t).rank r j ≤ p.rank r j
            rw [NormPipe.rank, NormPipe.rank]
            omega
          · have hend := List.getElem?_eq_none_iff.mp hnone.symm
            rw [StreamRequest.beats_length] at hend
            omega
      | some b =>
          refine lowers_of_lt ?_
          rw [hready, hmove, passRank_rx hs hc (by omega)]
          exact normTake_rank hs (by omega) b
  | scan hj hl ha hs =>
      have hready : p.regs.tready = false := by rw [Norm.tready, hs.state, hs.scanning]; rfl
      have hmove : p.edge F o t = p.moved F _ :=
        congrArg (p.moved F) (norm_compare hs.still hs.state hs.scanning o t p.cores)
      refine lowers_of_lt ?_
      rw [hready, hmove]
      exact normScan_rank hs

/-- Between the passes. -/
theorem normRange_rank (hsum : ls + ld ≤ 128) {lo hi : BitVec 32} {j : Nat} {out : List SlotBeat}
    (h : NormPos F r (.range lo hi) j p.regs out)
    (hsub : p.sub.items = if p.regs.rangeIssued then [F.sub hi lo] else []) (o : Option SlotBeat) (t : Bool) :
    NormPipe.Lowers F r j p o t := by
  cases h with
  | range hj hd ha he hr =>
      have hdata := List.length_pos_iff.mpr hd
      have hready : p.regs.tready = false := by rw [Norm.tready, hr.state]; rfl
      have hmove : p.edge F o t = p.moved F _ :=
        congrArg (p.moved F) (norm_measure hr.still hr.state hr.scanning o t p.cores)
      have hall := normDrain_all (p.moved F (p.regs.tick (p.regs.measure p.cores p.regs)))
      have hrank : p.passRank r j =
          200 * r.data.length + (if p.regs.rangeIssued then p.drainTime + 1 else ls + ld + 2) := by
        rw [NormPipe.passRank, hr.state]
      refine lowers_of_lt ?_
      rw [hready, hmove, hrank]
      show (p.moved F (p.regs.tick (p.regs.measure p.cores p.regs))).passRank r j < _
      cases hv : p.cores.subResValid with
      | true =>
          have hmeasure := measure_some (s := p.regs) hv
          have hline := normLineRank_le (p.moved F (p.regs.tick (p.regs.measure p.cores p.regs)))
          have hstate : (p.moved F (p.regs.tick (p.regs.measure p.cores p.regs))).regs.state = .norm := by
            rw [hmeasure]
            rfl
          have hrep : (p.moved F (p.regs.tick (p.regs.measure p.cores p.regs))).regs.repLine.toNat = 0 := by
            rw [hmeasure]
            rfl
          rw [NormPipe.passRank, hstate, hrep]
          show 200 * (r.data.length - 1 - 0) + _ < _
          omega
      | false =>
          have hmeasure := measure_none (s := p.regs) hv
          have hfire : p.regs.subFire p.cores = !p.regs.rangeIssued := by
            rw [Norm.subFire, hr.state]
            cases p.regs.rangeIssued <;> rfl
          have hstate : (p.moved F (p.regs.tick (p.regs.measure p.cores p.regs))).regs.state = .range := by
            rw [hmeasure]
            exact hr.state
          have hissued : (p.moved F (p.regs.tick (p.regs.measure p.cores p.regs))).regs.rangeIssued = true := by
            rw [hmeasure]
            show (if p.regs.subFire p.cores then true else p.regs.rangeIssued) = true
            rw [hfire]
            cases p.regs.rangeIssued <;> rfl
          rw [NormPipe.passRank, hstate, hissued]
          show 200 * r.data.length + ((p.moved F _).drainTime + 1) < _
          cases hi : p.regs.rangeIssued with
          | false =>
              rw [if_neg Bool.false_ne_true]
              omega
          | true =>
              have hless := normDrain_moved (F := F) (p := p) (by rw [range_issued hr, hi]; rfl)
                (p.regs.tick (p.regs.measure p.cores p.regs))
              have hpos : 0 < p.drainTime := by
                refine normDrain_pos fun hempty => ?_
                rw [hi, if_pos rfl, hempty.1] at hsub
                cases hsub
              rw [if_pos rfl]
              omega

theorem normOffer_rank {lo hi : BitVec 32} {j k : Nat} {line : BitVec 512} (h : NormOffer F r lo hi k line p.regs) :
    p.passRank r j = 200 * (r.data.length - 1 - k) + 1 := by
  rw [NormPipe.passRank, h.state]
  show 200 * (r.data.length - 1 - p.regs.repLine.toNat) + p.lineRank = _
  rw [h.repLine, NormPipe.lineRank, h.respValid]
  rfl

/-- A response accepted is progress. -/
theorem normAccept_rank (hsum : ls + ld ≤ 128) {lo hi : BitVec 32} {j k : Nat} {l : SlotLine}
    (hj : j = r.lines.length) (hl : r.data[k]? = some l) (h : NormOffer F r lo hi k l.payload p.regs) :
    (p.moved F (p.regs.accept (p.regs.tick p.regs))).passRank r j < p.passRank r j := by
  have hlt : k < r.data.length := (List.getElem?_eq_some_iff.mp hl).1
  rw [normOffer_rank h]
  by_cases hlast : k + 1 = r.data.length
  · have haccept := accept_last (r := p.regs.tick p.regs) (h.respLast.trans (decide_eq_true hlast))
    have hstate : (p.moved F (p.regs.accept (p.regs.tick p.regs))).regs.state = .rx := by
      rw [haccept]
      rfl
    have hscan : (p.moved F (p.regs.accept (p.regs.tick p.regs))).regs.scanning = false := by
      rw [haccept]
      exact h.scanning
    rw [NormPipe.passRank, hstate, hscan, hj, decide_eq_false (Nat.lt_irrefl _), Nat.sub_self]
    exact Nat.succ_pos _
  · have haccept := accept_more (r := p.regs.tick p.regs) (h.respLast.trans (decide_eq_false hlast))
    have hstate : (p.moved F (p.regs.accept (p.regs.tick p.regs))).regs.state = .norm := by
      rw [haccept]
      exact h.state
    have hrep : (p.moved F (p.regs.accept (p.regs.tick p.regs))).regs.repLine.toNat = k + 1 := by
      have hwidth := p.regs.nlines.isLt
      have hlines := h.buffered.nlines
      rw [haccept]
      show (p.regs.repLine + 1).toNat = k + 1
      rw [toNat_succ (by rw [h.repLine]; omega), h.repLine]
    have hline := normLineRank_le (p.moved F (p.regs.accept (p.regs.tick p.regs)))
    rw [NormPipe.passRank, hstate, hrep]
    show 200 * (r.data.length - 1 - (k + 1)) + _ < _
    omega

/-- While a result is owed the cores are not empty. -/
theorem normFlight_busy {lo hi : BitVec 32} {ws : List (BitVec 32)}
    (h : NormFlight F lo hi ws p.sub.items p.div.items) (hws : ws ≠ []) : 0 < p.drainTime := by
  refine normDrain_pos fun ⟨h1, h2⟩ => hws ?_
  obtain ⟨L1, L2, rfl, hL1, hL2⟩ := h
  rw [List.eq_nil_of_map_eq_nil (hL1.symm.trans h2), List.eq_nil_of_map_eq_nil (hL2.symm.trans h1)]
  rfl

/-- The second pass. -/
theorem normSecond_rank (hsum : ls + ld ≤ 128) {lo hi : BitVec 32} {w : List (BitVec 32)} {n j : Nat}
    {out : List SlotBeat} (h : NormPos F r (.second lo hi w n) j p.regs out)
    (hf : NormFlight F lo hi (w.drop n) p.sub.items p.div.items) (o : Option SlotBeat) (t : Bool) :
    NormPipe.Lowers F r j p o t := by
  have howed := normPos_owed h
  cases h with
  | load hj hl ha he hload hw hn hout =>
      have hready : p.regs.tready = false := by rw [Norm.tready, hload.state]; rfl
      have hplays := replays_edge hload.toNormReplays (t := t) (by rw [hload.respValid]; rfl) o p.cores
      have hless := normLoad_rank hload (fun hi => normFlight_busy hf fun hnil => ?_) o t
      · refine lowers_of_lt ?_
        rw [hready, NormPipe.passRank, NormPipe.passRank, hload.state,
          show (p.edge F o t).regs.state = .norm from hplays.state]
        show 200 * (r.data.length - 1 - (p.edge F o t).regs.repLine.toNat) + _ <
          200 * (r.data.length - 1 - p.regs.repLine.toNat) + _
        rw [show (p.edge F o t).regs.repLine.toNat = _ from hplays.repLine, hload.repLine]
        omega
      · have hwords := hload.words
        have hlen := congrArg List.length hnil
        rw [List.length_drop, List.length_nil] at hlen
        rw [hi] at hwords
        refine filling_owes hwords (BitVec.eq_of_toNat_eq ?_)
        show p.regs.outstanding.toNat = 0
        omega
  | offer hj hl ha he hoffer hw hn hout =>
      have hready : p.regs.tready = false := by rw [Norm.tready, hoffer.state]; rfl
      cases t with
      | false =>
          have hflush := normPipe_flush (F := F) p o false
          have hsame : (p.edge F o false).passRank r j = p.passRank r j :=
            (normOffer_rank (p := p.edge F o false) (normOffer_edge hoffer o p.cores)).trans (normOffer_rank hoffer).symm
          refine ⟨?_, nofun⟩
          rw [hready]
          show (p.edge F o false).rank r j ≤ p.rank r j
          rw [NormPipe.rank, NormPipe.rank]
          omega
      | true =>
          have hmove : p.edge F o true = p.moved F _ := congrArg (p.moved F)
            (norm_accept hoffer.state hoffer.scanning hoffer.issuing hoffer.respValid hoffer.outstanding o p.cores)
          refine lowers_of_lt ?_
          rw [hready, hmove]
          exact normAccept_rank hsum hj hl hoffer

/-- What an edge owes to a request. -/
def NormPipe.Advances (F : NormFn) (r : StreamRequest) (j : Nat) (p : NormPipe ls ld) (out : List SlotBeat)
    (o : Option SlotBeat) (t : Bool) : Prop :=
  Advance (normPipe F ls ld) r.beats (NormAt F r) (NormPipe.rank r) j p out o t ()

theorem normIdle_rank {j : Nat} (h : p.regs.Idle) (hj : j = r.lines.length) : p.passRank r j = 0 := by
  rw [NormPipe.passRank, h.state, h.scanning, hj, decide_eq_false (Nat.lt_irrefl _), Nat.sub_self]
  rfl

/-- An idle module takes nothing: only the countdown is left to do. -/
theorem normIdle_wait {j : Nat} {out : List SlotBeat} {o : Option SlotBeat} {t : Bool} (hp : p.Idle)
    (hwait : NormAt F r j (p.moved F (p.regs.tick p.regs)) out)
    (ht : (if p.regs.tready then o else none) = none)
    (hflush : o = r.beats[j]? → p.rank r j ≠ 0 → p.regs.flushCnt.toNat ≠ 0) :
    NormPipe.Advances F r j p out o t := by
  have hedge := norm_between hp.regs.still hp.regs.state hp.regs.scanning o t p.cores
  rw [ht] at hedge
  have hmove : p.edge F o t = p.moved F (p.regs.tick p.regs) := congrArg (p.moved F) hedge
  have hcount := normPipe_flush (F := F) p o t
  have hpass : (p.edge F o t).passRank r j = p.passRank r j := by
    rw [hmove, NormPipe.passRank, NormPipe.passRank, hp.regs.state]
    show (match p.regs.state with | .rx => _ | .range => _ | .norm => _) = _
    rw [hp.regs.state]
    rfl
  rw [← hmove] at hwait
  refine .silent ht ?_ hwait ?_ fun hb _ h0 => ?_
  · show (if p.regs.respValid && t then some p.regs.response else none) = none
    rw [hp.regs.respValid]
    rfl
  · show (p.edge F o t).rank r j ≤ p.rank r j
    rw [NormPipe.rank, NormPipe.rank, hcount]
    omega
  · have hne := hflush hb h0
    show (p.edge F o t).rank r j < p.rank r j
    rw [NormPipe.rank, NormPipe.rank, hcount]
    omega

/-- The first line is taken once the module has counted down. -/
theorem normFresh_edge (hp : p.Idle) (hfits : NormFits r) (o : Option SlotBeat) (t : Bool)
    (hoff : o = none ∨ o = r.beats[0]?) : NormPipe.Advances F r 0 p [] o t := by
  cases o with
  | none =>
      refine normIdle_wait hp (.fresh (normIdle_tick hp)) (ite_self _) fun hnone => ?_
      cases hnone
  | some b =>
      obtain rfl : r.first.beat r.more.isEmpty = b :=
        Option.some_injective _ (hoff.resolve_left (Option.some_ne_none b)).symm
      have hready := normIdle_tready hp.regs.toIdle
      by_cases hz : p.regs.flushCnt = 0
      · rw [hz] at hready
        have hedge := norm_between hp.regs.still hp.regs.state hp.regs.scanning
          (some (r.first.beat r.more.isEmpty)) t p.cores
        rw [hready] at hedge
        have hmove : p.edge F (some (r.first.beat r.more.isEmpty)) t =
            p.moved F (p.regs.tick (p.regs.take (r.first.beat r.more.isEmpty))) := congrArg (p.moved F) hedge
        have hcount := normPipe_flush (F := F) p (some (r.first.beat r.more.isEmpty)) t
        have hnext := normAt_first (F := F) hp hz hfits
        have hless := normTake_rank (F := F) (p := p) (r := r) (j := 0) hp.regs.state (Nat.succ_pos _)
          (r.first.beat r.more.isEmpty)
        rw [← hmove] at hnext hless
        refine .take (b := r.first.beat r.more.isEmpty) ?_ ?_ hnext ?_
        · show (if p.regs.tready then some _ else none) = some _
          rw [hready]
          rfl
        · show (if p.regs.respValid && t then some p.regs.response else none) = none
          rw [hp.regs.respValid]
          rfl
        · show (p.edge F _ t).rank r (0 + 1) < p.rank r 0
          rw [NormPipe.rank, NormPipe.rank, hcount, passRank_rx hp.regs.state hp.regs.scanning (Nat.succ_pos _)]
          omega
      · rw [beq_eq_false_iff_ne.mpr hz] at hready
        refine normIdle_wait hp (.fresh (normIdle_tick hp)) (by rw [hready]; rfl) fun _ _ hzero => ?_
        exact hz (BitVec.eq_of_toNat_eq hzero)

/-- **One edge of a request.** -/
theorem normAt_edge (hs : 0 < ls) (hd : 0 < ld) (hsum : ls + ld ≤ 128) (hfits : NormFits r) {j : Nat}
    {out : List SlotBeat} (h : NormAt F r j p out) (o : Option SlotBeat) (t : Bool)
    (hoff : o = none ∨ o = r.beats[j]?) : NormPipe.Advances F r j p out o t := by
  cases h with
  | fresh hp => exact normFresh_edge hp hfits o t hoff
  | first hpos hc =>
      obtain ⟨hle, hlt⟩ := normRx_rank hfits hpos o t
      have hsilent : p.regs.respValid = false ∧ p.regs.state = .rx ∧ out = [] := by
        cases hpos with
        | between _ _ _ _ hs _ hq => exact ⟨hq.respValid, hs, rfl⟩
        | scan _ _ _ hs => exact ⟨hs.still.respValid, hs.state, rfl⟩
      obtain ⟨hresp, hstate, rfl⟩ := hsilent
      have hempty := normEmpty_moved (F := F) hc (rx_issued hstate) (p.regs.edge o t p.cores)
      have hnext : NormAt F r (j + (if p.regs.tready then o else none).toList.length) (p.edge F o t) [] := by
        rcases normPos_rx hpos o t p.cores hoff with hnext | ⟨lo, hi, hnext, hissued⟩
        · exact .first hnext hempty
        · refine .range hnext ?_ hempty.2
          rw [show (p.edge F o t).regs.rangeIssued = false from hissued]
          exact hempty.1
      refine ⟨?_, hle, fun ho hw _ => hlt ho hw⟩
      show NormAt F r _ _ ([] ++ (if p.regs.respValid && t then some p.regs.response else none).toList)
      rw [hresp]
      exact hnext
  | range hpos hsub hdiv =>
      obtain ⟨hle, hlt⟩ := normRange_rank hsum hpos hsub o t
      have hnext := normAt_range hs hpos hsub hdiv o t
      cases hpos with
      | range hj hd' ha he hr =>
          have hready : p.regs.tready = false := by rw [Norm.tready, hr.state]; rfl
          refine ⟨?_, hle, fun ho hw _ => hlt ho hw⟩
          show NormAt F r (j + (if p.regs.tready then o else none).toList.length) _
            ([] ++ (if p.regs.respValid && t then some p.regs.response else none).toList)
          rw [hready, hr.still.respValid]
          exact hnext
  | second hpos hf =>
      obtain ⟨hle, hlt⟩ := normSecond_rank hsum hpos hf o t
      have hnext := normAt_second hs hd hfits hpos hf o t
      obtain ⟨k, hplays⟩ := normPos_replays hpos
      have hready : p.regs.tready = false := by rw [Norm.tready, hplays.state]; rfl
      refine ⟨?_, hle, fun ho hw _ => hlt ho hw⟩
      show NormAt F r (j + (if p.regs.tready then o else none).toList.length) _
        (out ++ (if p.regs.respValid && t then some p.regs.response else none).toList)
      rw [hready]
      exact hnext
  | done hp hout =>
      have hnil : r.beats[r.lines.length]? = none := List.getElem?_eq_none (Nat.le_of_eq r.beats_length)
      obtain rfl : o = none := hoff.elim id fun e => e.trans hnil
      refine normIdle_wait hp (.done (normIdle_tick hp) hout) (ite_self _) fun _ h0 => ?_
      rw [NormPipe.rank, normIdle_rank hp.regs.toIdle rfl] at h0
      exact h0

theorem normAt_start (hsum : ls + ld ≤ 128) (hp : p.Idle) : p.rank r 0 ≤ 400 + 220 * r.lines.length := by
  have hflush := p.regs.flushCnt.isLt
  have hlen : r.lines.length = r.headers + r.data.length := StreamRequest.lines_length
  rw [NormPipe.rank, passRank_rx hp.regs.state hp.regs.scanning (Nat.succ_pos _)]
  omega

/-- The beats that are taken. -/
theorem normPos_le {st : NormStage} {j : Nat} {s : Norm} {out : List SlotBeat} (h : NormPos F r st j s out) :
    0 < j ∧ j ≤ r.lines.length := by
  have hlen : r.lines.length = r.headers + r.data.length := StreamRequest.lines_length
  have hpos : 0 < r.lines.length := Nat.succ_pos _
  cases h with
  | between h0 hj hk => omega
  | scan hj hl => have hlt := (List.getElem?_eq_some_iff.mp hl).1; omega
  | range hj => omega
  | load hj => omega
  | offer hj => omega

/-- As long as a request is under way, something is left to do. -/
theorem normPos_left {st : NormStage} {j : Nat} {out : List SlotBeat} (h : NormPos F r st j p.regs out) :
    p.passRank r j ≠ 0 := by
  have hlen : r.lines.length = r.headers + r.data.length := StreamRequest.lines_length
  cases h with
  | between _ hj hk _ hs hc => rw [passRank_rx hs hc (by omega)]; omega
  | scan _ _ _ hs =>
      have hless := normScan_rank (F := F) (j := j) hs
      omega
  | range _ _ _ _ hr =>
      rw [NormPipe.passRank, hr.state]
      simp only
      split <;> omega
  | load _ _ _ _ hload =>
      rw [NormPipe.passRank, hload.state, NormPipe.lineRank, hload.respValid]
      simp only [Bool.false_eq_true, if_false]
      split <;> omega
  | offer _ _ _ _ hoffer => rw [normOffer_rank hoffer]; omega

/-- A request of which nothing is left to do is answered. -/
theorem normAt_finish {j : Nat} {out : List SlotBeat} (h : NormAt F r j p out) (h0 : p.rank r j = 0) :
    j = r.lines.length ∧ out = r.normAnswer F ∧ p.Idle := by
  have hzero : p.passRank r j = 0 := by
    rw [NormPipe.rank] at h0
    omega
  cases h with
  | fresh hp =>
      rw [passRank_rx hp.regs.state hp.regs.scanning (Nat.succ_pos _)] at hzero
      omega
  | first hpos => exact absurd hzero (normPos_left hpos)
  | range hpos => exact absurd hzero (normPos_left hpos)
  | second hpos => exact absurd hzero (normPos_left hpos)
  | done hp hout => exact ⟨rfl, hout, hp⟩

/-- The module takes a beat after the last one only when it is done. -/
theorem normAt_ends {j : Nat} {out : List SlotBeat} (h : NormAt F r j p out) (hj : j = r.lines.length)
    (hready : p.regs.tready = true) : out = r.normAnswer F ∧ p.Idle := by
  have hpos : 0 < r.lines.length := Nat.succ_pos _
  have hle : r.lines.length ≤ j := Nat.le_of_eq hj.symm
  cases h with
  | fresh => omega
  | first hpos => rw [normPos_full hpos hle] at hready; cases hready
  | range hpos => rw [normPos_full hpos hle] at hready; cases hready
  | second hpos => rw [normPos_full hpos hle] at hready; cases hready
  | done hp hout => exact ⟨hout, hp⟩

theorem normAt_begun (hfits : NormFits r) {j : Nat} {out : List SlotBeat} (h : NormAt F r j p out) :
    out <+: r.normAnswer F := by
  cases h with
  | fresh => exact List.nil_prefix
  | first hpos => cases hpos <;> exact List.nil_prefix
  | range hpos => cases hpos; exact List.nil_prefix
  | second hpos =>
      obtain ⟨-, hout, he, -⟩ := normPos_begun hpos
      obtain ⟨rfl, rfl⟩ := he hfits
      exact hout
  | done _ hout => exact hout ▸ List.prefix_rfl

theorem normAt_silent {j : Nat} {out : List SlotBeat} (h : NormAt F r j p out) (hj : j = 0) :
    p.regs.respValid = false := by
  cases h with
  | fresh hp => exact hp.regs.respValid
  | first hpos => have := (normPos_le hpos).1; omega
  | range hpos => have := (normPos_le hpos).1; omega
  | second hpos => have := (normPos_le hpos).1; omega
  | done hp => exact hp.regs.respValid

theorem normPipe_blind {o : Option SlotBeat} {t : Bool} (h : p.regs.tready = false) :
    p.edge F o t = p.edge F none t :=
  congrArg (p.moved F) (norm_blind h o t p.cores)

/-- **`norm` serves every request that it can hold.** -/
noncomputable def normServer (F : NormFn) (hs : 0 < ls) (hd : 0 < ld) (hsum : ls + ld ≤ 128) :
    Server (normPipe F ls ld) NormFits (StreamRequest.normAnswer F) where
  service r hr :=
    { Inv := NormAt F r
      rank := NormPipe.rank r
      bound := 400 + 220 * r.lines.length
      start := fun hp => ⟨.fresh hp, normAt_start hsum hp⟩
      edge := fun h o t _ hoff => normAt_edge hs hd hsum hr h o t hoff
      finish := fun h h0 => (normAt_finish h h0).2 }
  bound r := 400 + 220 * r.lines.length
  within _ _ := Nat.le_refl _
  length r _ := r.reply_length _
  blind _ _ h := normPipe_blind h
  mute _ _ _ := rfl
  begun {r hr _ _ _} h := normAt_begun hr h
  silent {_ _ p _} t h := by
    show (if p.regs.respValid && t then some p.regs.response else none) = none
    rw [normAt_silent h rfl]
    rfl
  ends {r _ _ _ _} h hready := normAt_ends h r.beats_length hready
  all {r _ j p _} h h0 := (normAt_finish h h0).1.trans r.beats_length.symm
  rests {p} t _ (hp : p.Idle) := by
    have hedge := norm_between hp.regs.still hp.regs.state hp.regs.scanning none t p.cores
    rw [ite_self] at hedge
    refine ⟨?_, ?_⟩
    · show (p.moved F (p.regs.edge none t p.cores)).Idle
      rw [hedge]
      exact normIdle_tick hp
    · show (if p.regs.respValid && t then some p.regs.response else none) = none
      rw [hp.regs.respValid]
      rfl

end Service

/-! ## 6. Every stream -/

/-- A reset makes the module idle, whatever the cores hold. -/
theorem normPipe_reset {ls ld : Nat} (F : NormFn) (hsum : ls + ld ≤ 128) (p : NormPipe ls ld) :
    (p.reset F).Idle :=
  ⟨⟨norm_idle_reset _ _, rfl, rfl⟩, normDrained_any hsum⟩

/-- **`norm` normalises every request with its own extremes.** Over cores of any latencies that sum up to
    less than the 128 edges counted after a reset, from a reset of any state, with any gaps, stalls and
    resets: what is sent for a request that no reset cut is its answer, and nothing is sent that does not
    begin the answer of the request under way; with nothing held back all requests are answered. A beat of
    an answer has the words of its line, less the least and over the range, and the extremes bound the
    words of all data lines. -/
theorem norm_stream (F : NormFn) {ls ld : Nat} (hs : 1 ≤ ls) (hd : 1 ≤ ld) (hsum : ls + ld < 128)
    (requests : List StreamRequest) (hfits : ∀ r ∈ requests, NormFits r) (p : NormPipe ls ld)
    (is : List (ResetIn (normPipe F ls ld))) :
    StreamAnswers (StreamRequest.normAnswer F) requests
      (run (ResetStream.clock (NormPipe.reset F)) (.start (p.reset F) requests) is) ∧
    (∀ js : List (ResetIn (normPipe F ls ld)), (∀ j ∈ js, j.rst = false) →
      (requests.map fun r => 400 + 220 * r.lines.length).sum ≤ js.countP (fun j => j.valid && j.mTready) →
      (run (ResetStream.clock (NormPipe.reset F)) (.start (p.reset F) requests) (is ++ js)).rest = [] ∧
        ∀ a ∈ (run (ResetStream.clock (NormPipe.reset F)) (.start (p.reset F) requests) (is ++ js)).now,
          a.sent = a.request.normAnswer F) ∧
    ∀ r ∈ requests, (r.normAnswer F).length = r.data.length ∧
      (∃ l ∈ r.data, ∃ i, word l.payload i = r.least) ∧ (∃ l ∈ r.data, ∃ i, word l.payload i = r.greatest) ∧
      (∀ l ∈ r.data, ∀ i, ieee r.least ≤ ieee (word l.payload i) ∧ ieee (word l.payload i) ≤ ieee r.greatest) ∧
      ∀ k l, r.data[k]? = some l → ∃ b, (r.normAnswer F)[k]? = some b ∧
        b.bytes = r.first.bytes - (if r.first.isHeader then 64 else 0) ∧ b.session = r.first.session ∧
        b.tlast = decide (k + 1 = r.data.length) ∧
        ∀ i, word b.payload i = F.div (F.sub (word l.payload i) r.least) (F.sub r.greatest r.least) := by
  have hsum' : ls + ld ≤ 128 := Nat.le_of_lt hsum
  have hreset : ∀ q : NormPipe ls ld, (q.reset F).Idle := normPipe_reset F hsum'
  obtain ⟨hat, hbooks⟩ := server_run (normServer F hs hd hsum') hreset hfits p is
  refine ⟨answers_of_at hat hbooks, fun js hjs henough => ?_, fun r hr => ?_⟩
  · refine server_finishes (normServer F hs hd hsum') hreset hfits p is js hjs ?_
    have hcount := count_input (ResetStream.clock (NormPipe.reset F))
      (fun j : ResetIn (normPipe F ls ld) => j.valid && j.mTready)
      (run (ResetStream.clock (NormPipe.reset F)) (.start (p.reset F) requests) is) js
    exact hcount ▸ henough
  · obtain ⟨hleast, hgreatest, hbound⟩ := StreamRequest.extremes (hfits r hr).ne_nil
    refine ⟨r.reply_length _, StreamRequest.mem_allValues.mp hleast, StreamRequest.mem_allValues.mp hgreatest,
      fun l hl i => hbound _ (StreamRequest.mem_allValues.mpr ⟨l, hl, i, rfl⟩), fun k l hk => ?_⟩
    exact ⟨_, r.reply_getElem? _ hk, rfl, rfl, rfl,
      fun i => word_mapWords (F.scaled r.least r.greatest) l.payload i⟩

/-- Cores of latency one. -/
def shortNorm : NormPipe 1 1 := ⟨Norm.reset (fun _ => 0) 0, .empty, .empty⟩

/-- Cores that compute with integers. -/
def integerNorm : NormFn := ⟨(· - ·), (· / ·)⟩

def normEdge (rst : Bool) : ResetIn (normPipe integerNorm 1 1) := ⟨⟨true, true, ()⟩, rst⟩

/-- A header with one data line and a request without a header, with negative words: a reset comes 150
    edges after the first, with the first line being played back. -/
theorem norm_stream_reset :
    let requests : List StreamRequest :=
      [⟨⟨128, 7, BitVec.allOnes 512⟩, [⟨128, 9, 0x8000000900000005⟩]⟩, ⟨⟨64, 8, 0x700000003⟩, []⟩]
    let y := run (ResetStream.clock (NormPipe.reset integerNorm)) (.start (shortNorm.reset integerNorm) requests)
      (List.replicate 150 (normEdge false) ++ [normEdge true] ++ List.replicate 1500 (normEdge false))
    StreamAnswers (StreamRequest.normAnswer integerNorm) requests y ∧ y.rest = [] ∧
      ∀ a ∈ y.now, a.sent = a.request.normAnswer integerNorm := by
  intro requests y
  have hfits : ∀ r ∈ requests, NormFits r := by
    intro r hr
    rcases List.mem_pair.mp hr with rfl | rfl
    · exact ⟨by decide +kernel, by decide +kernel, by decide +kernel⟩
    · exact ⟨by decide +kernel, by decide +kernel, by decide +kernel⟩
  have h := fun is => norm_stream integerNorm (by decide) (by decide) (by decide) requests hfits shortNorm is
  refine ⟨(h _).1, (h (List.replicate 150 (normEdge false) ++ [normEdge true])).2.1 _ (fun j hj => ?_) ?_⟩
  · rw [List.eq_of_mem_replicate hj]
    rfl
  · rw [List.countP_replicate]
    decide

end Frac.Slots
