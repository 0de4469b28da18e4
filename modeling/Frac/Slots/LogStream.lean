/-
  File:      Frac/Slots/LogStream.lean
  Subject:   `log.v` over cores of fixed latency that cannot be reset, on every stream of requests and
             with a reset at any edge.

  After a reset the cores still hold what was issued before it. The module counts 128 edges before it
  takes a line, and until then drops what comes out: of the subtractor because no subtraction is
  pending, of the logarithm because no result is owed.

  * `LogPipe` -- the module with its three cores; `LogFn` -- what they compute;
  * `Align.Holds` -- the alignment FIFO; `LogFlight` -- **which word is where**, `logFlight_step` -- an
    edge of it;
  * `LogPipe.Drained` -- the cores empty in so many edges;
  * `log_stream` -- **every word of a response is the logit of its own word**, whatever the gaps, stalls
    and resets.
-/
import Mathlib.Order.Lattice.Nat
import Frac.Slots.LogLines
import Frac.Slots.Resets

namespace Frac.Slots

open Bits Clocked

/-! ## 1. The alignment FIFO -/

namespace Align

/-- The next word, `x_aligned`. -/
def front (a : Align) : BitVec 32 := a.mem (a.rd.setWidth 5)

def push (a : Align) (x : BitVec 32) : Align :=
  { mem := fun k => if k == a.wr.setWidth 5 then x else a.mem k
    wr := a.wr + 1
    rd := a.rd
    subPending := a.subPending + 1 }

def pop (a : Align) : Align := { a with rd := a.rd + 1, subPending := a.subPending - 1 }

/-- A word goes in, and the oldest one comes out. -/
def move (a : Align) (x : Option (BitVec 32)) (out : Bool) : Align :=
  if out then (x.elim a a.push).pop else x.elim a a.push

/-- **The FIFO holds the words `L`**, oldest first. -/
structure Holds (a : Align) (L : List (BitVec 32)) : Prop where
  pending : a.subPending.toNat = L.length
  wr : a.wr = a.rd + BitVec.ofNat 6 L.length
  mem : ∀ j x, L[j]? = some x → a.mem ((a.rd + BitVec.ofNat 6 j).setWidth 5) = x

variable {a : Align} {L : List (BitVec 32)}

theorem holds_front {x : BitVec 32} (h : a.Holds (x :: L)) : a.front = x := by
  have hmem := h.mem 0 x rfl
  rw [show BitVec.ofNat 6 0 = 0#6 from rfl, BitVec.add_zero] at hmem
  exact hmem

theorem pending_ne_zero (h : a.Holds L) : a.subPending ≠ 0 ↔ L ≠ [] := by
  rw [Ne, Ne, ← List.length_eq_zero_iff, ← h.pending]
  exact not_congr ⟨fun e => by rw [e]; rfl, fun e => BitVec.eq_of_toNat_eq e⟩

theorem holds_push (h : a.Holds L) (hlen : L.length < 32) (x : BitVec 32) :
    (a.push x).Holds (L ++ [x]) := by
  have hw : a.wr.toNat = (a.rd.toNat + L.length) % 64 := by
    rw [h.wr, BitVec.toNat_add, BitVec.toNat_ofNat, Nat.add_mod_mod]
  have hsucc : a.wr + 1 = a.rd + BitVec.ofNat 6 (L.length + 1) := by
    rw [h.wr, BitVec.ofNat_add, BitVec.add_assoc]
    rfl
  refine ⟨?_, ?_, fun j v hj => ?_⟩
  · rw [List.length_append, ← h.pending]
    exact toNat_succ (by rw [h.pending]; omega)
  · rw [List.length_append]
    exact hsucc
  · have hidx : ((a.rd + BitVec.ofNat 6 j).setWidth 5 : BitVec 5).toNat = (a.rd.toNat + j) % 32 := by
      rw [BitVec.toNat_setWidth, BitVec.toNat_add, BitVec.toNat_ofNat]
      omega
    have hwr : (a.wr.setWidth 5 : BitVec 5).toNat = (a.rd.toNat + L.length) % 32 := by
      rw [BitVec.toNat_setWidth, hw]
      omega
    have hlt : j < (L ++ [x]).length := (List.getElem?_eq_some_iff.mp hj).1
    rw [List.length_append, List.length_singleton] at hlt
    show (if (a.rd + BitVec.ofNat 6 j).setWidth 5 == a.wr.setWidth 5 then x
      else a.mem ((a.rd + BitVec.ofNat 6 j).setWidth 5)) = v
    by_cases heq : j = L.length
    · rw [heq, List.getElem?_concat_length] at hj
      rw [if_pos (beq_iff_eq.mpr (BitVec.eq_of_toNat_eq (by rw [hidx, hwr, heq])))]
      exact Option.some_injective _ hj
    · rw [List.getElem?_append_left (by omega)] at hj
      rw [if_neg fun e => ?_]
      · exact h.mem j v hj
      · have := congrArg BitVec.toNat (beq_iff_eq.mp e)
        rw [hidx, hwr] at this
        omega

theorem holds_pop {x : BitVec 32} (h : a.Holds (x :: L)) : a.pop.Holds L := by
  have hnext : ∀ j, a.rd + 1 + BitVec.ofNat 6 j = a.rd + BitVec.ofNat 6 (j + 1) := fun j => by
    rw [Nat.add_comm j 1, BitVec.ofNat_add, ← BitVec.add_assoc]
    rfl
  refine ⟨?_, ?_, fun j v hj => ?_⟩
  · have hp : a.subPending.toNat = L.length + 1 := h.pending
    show (a.subPending - 1).toNat = L.length
    rw [toNat_pred (by omega)]
    omega
  · rw [show a.pop.wr = a.wr from rfl, show a.pop.rd = a.rd + 1 from rfl, hnext]
    exact h.wr
  · show a.mem ((a.rd + 1 + BitVec.ofNat 6 j).setWidth 5) = v
    rw [hnext]
    exact h.mem (j + 1) v hj

/-- **What the FIFO holds after an edge.** -/
theorem holds_move (h : a.Holds L) (hlen : L.length < 32) {x y : Option (BitVec 32)}
    {L' : List (BitVec 32)} (hL : L ++ x.toList = y.toList ++ L') :
    (a.move x y.isSome).Holds L' := by
  have hin : (x.elim a a.push).Holds (L ++ x.toList) := by
    cases x with
    | none => rw [Option.toList_none, List.append_nil]; exact h
    | some v => exact holds_push h hlen v
  rw [hL] at hin
  unfold move
  cases y with
  | none => exact hin
  | some v => exact holds_pop hin

end Align

/-- The clocked block of the alignment, where no stale result comes back as a word is issued. -/
theorem alignEdge_move {s : Log} {c : LogCores}
    (hstale : (c.subResValid && c.divAReady && c.divBReady) = true → s.issueFire c = true →
      s.align.subPending ≠ 0) :
    s.alignEdge c = s.align.move (s.issued c)
      (c.subResValid && c.divAReady && c.divBReady && s.align.subPending != 0) := by
  unfold Log.alignEdge Align.move Log.issued
  simp only
  generalize (c.subResValid && c.divAReady && c.divBReady) = taken at hstale ⊢
  by_cases hp : s.align.subPending = 0
  · have hnone : (taken && s.align.subPending != 0) = false := by rw [hp]; exact Bool.and_false _
    rw [hnone]
    cases hfire : s.issueFire c with
    | false => rfl
    | true =>
        cases taken with
        | false => rfl
        | true => exact absurd hp (hstale rfl hfire)
  · have hsome : (taken && s.align.subPending != 0) = taken := by
      rw [bne_iff_ne.mpr hp, Bool.and_true]
    have hback : s.align.subPending + 1 - 1 = s.align.subPending := BitVec.add_sub_cancel ..
    rw [hsome]
    cases s.issueFire c with
    | false => cases taken <;> rfl
    | true =>
        cases taken with
        | false => rfl
        | true =>
            show _ = { s.align.push (word s.line s.issueIdx) with
              rd := s.align.rd + 1
              subPending := s.align.subPending + 1 - 1 }
            rw [hback]
            rfl

/-- Without a word in it the FIFO stays as it is, whatever comes out of the subtractor. -/
theorem alignEdge_rest {s : Log} (h : s.align.Holds []) (hi : s.issuing = false) (c : LogCores) :
    (s.alignEdge c).Holds [] := by
  have hfire : s.issueFire c = false := by rw [Log.issueFire, hi]; rfl
  have hzero : s.align.subPending = 0 := BitVec.eq_of_toNat_eq h.pending
  rw [alignEdge_move fun _ hf => absurd (hfire.symm.trans hf) Bool.false_ne_true, rests_issued hi, hzero,
    bne_self_eq_false, Bool.and_false]
  exact h

/-! ## 2. The module with its cores -/

/-- What the cores compute. -/
structure LogFn where
  sub : BitVec 32 → BitVec 32 → BitVec 32
  div : BitVec 32 → BitVec 32 → BitVec 32
  ln : BitVec 32 → BitVec 32

/-- `FP_ONE`. -/
def fpOne : BitVec 32 := 0x3F800000

namespace LogFn

variable (F : LogFn)

def less (x : BitVec 32) : BitVec 32 := F.sub fpOne x
def odds (x : BitVec 32) : BitVec 32 := F.div x (F.less x)

/-- **The logit of a word.** -/
def logit (x : BitVec 32) : BitVec 32 := F.ln (F.odds x)

end LogFn

/-- The module with its cores: pipelines that are always ready, of fixed latency and without a reset. -/
structure LogPipe (ls ld ll : Nat) where
  regs : Log
  sub : Delay ls (BitVec 32)
  div : Delay ld (BitVec 32)
  ln : Delay ll (BitVec 32)

namespace LogPipe

variable {ls ld ll : Nat} (F : LogFn)

/-- What the cores drive. -/
def cores (p : LogPipe ls ld ll) : LogCores where
  subAReady := true
  subBReady := true
  subResValid := p.sub.last.isSome
  divAReady := true
  divBReady := true
  logResValid := p.ln.last.isSome
  logResData := p.ln.last.getD 0

/-- The word issued to the subtractor. -/
def issued (p : LogPipe ls ld ll) : Option (BitVec 32) := p.regs.issued p.cores

/-- What enters the divider, `align_pop` and `sub_res_real`: a result of the subtractor with its word. -/
def divided (p : LogPipe ls ld ll) : Option (BitVec 32) :=
  if p.regs.align.subPending != 0 then p.sub.last.map (F.div p.regs.align.front) else none

/-- The cores after an edge; they do not see `rst`. -/
def moved (p : LogPipe ls ld ll) (regs : Log) : LogPipe ls ld ll where
  regs := regs
  sub := p.sub.shift (p.issued.map F.less)
  div := p.div.shift (p.divided F)
  ln := p.ln.shift (p.div.last.map F.ln)

/-- The clock edge with `rst` low. -/
def edge (p : LogPipe ls ld ll) (o : Option SlotBeat) (t : Bool) : LogPipe ls ld ll :=
  p.moved F (p.regs.edge o t p.cores)

/-- The clock edge with `rst` high. -/
def reset (p : LogPipe ls ld ll) : LogPipe ls ld ll := p.moved F (Log.reset p.regs.align.mem)

/-- The cores are empty in `m` edges, if nothing is issued. -/
structure Drained (p : LogPipe ls ld ll) (m : Nat) : Prop where
  sub : p.sub.Within (m - ll - ld)
  div : p.div.Within (m - ll)
  ln : p.ln.Within m

/-- No request is under way, and the cores are empty once the module has counted down. -/
structure Idle (p : LogPipe ls ld ll) : Prop where
  regs : p.regs.Idle
  align : p.regs.align.Holds []
  drained : p.Drained p.regs.flushCnt.toNat

end LogPipe

/-- The module as a slot module: there is nothing that the cores could hold back. -/
def logPipe (F : LogFn) (ls ld ll : Nat) : SlotModule where
  State := LogPipe ls ld ll
  Cores := Unit
  Idle := LogPipe.Idle
  tready p _ := p.regs.tready
  edge p o t _ := p.edge F o t
  sent p _ t := if p.regs.respValid && t then some p.regs.response else none
  willing _ t _ := t

/-! ## 3. Draining -/

section Drain

variable {ls ld ll : Nat} {F : LogFn} {p : LogPipe ls ld ll}

theorem drained_any {m : Nat} (h : ls + ld + ll ≤ m) : p.Drained m :=
  ⟨Delay.within_of_le _ (by omega), Delay.within_of_le _ (by omega), Delay.within_of_le _ (by omega)⟩

theorem drained_empty (h1 : p.sub.items = []) (h2 : p.div.items = []) (h3 : p.ln.items = []) (m : Nat) :
    p.Drained m :=
  ⟨Delay.within_mono (Delay.within_zero_iff.mpr h1) (Nat.zero_le _),
    Delay.within_mono (Delay.within_zero_iff.mpr h2) (Nat.zero_le _),
    Delay.within_mono (Delay.within_zero_iff.mpr h3) (Nat.zero_le _)⟩

theorem drained_items (h : p.Drained 0) : p.sub.items = [] ∧ p.div.items = [] ∧ p.ln.items = [] := by
  refine ⟨Delay.within_zero_iff.mp ?_, Delay.within_zero_iff.mp ?_, Delay.within_zero_iff.mp h.ln⟩
  · have hsub := h.sub
    rwa [Nat.zero_sub, Nat.zero_sub] at hsub
  · have hdiv := h.div
    rwa [Nat.zero_sub] at hdiv

/-- **The cores empty by themselves** while nothing is issued. -/
theorem drained_moved {m : Nat} (h : p.Drained m) (hi : p.issued = none) (regs : Log) :
    (p.moved F regs).Drained (m - 1) := by
  refine ⟨?_, ?_, ?_⟩
  · rw [show m - 1 - ll - ld = m - ll - ld - 1 by omega]
    show (p.sub.shift (p.issued.map F.less)).Within _
    rw [hi]
    exact Delay.within_shift h.sub
  · rw [show m - 1 - ll = m - ll - 1 by omega]
    refine Delay.within_series h.sub h.div fun hlast => ?_
    rw [LogPipe.divided, hlast]
    exact ite_self _
  · refine Delay.within_series h.div h.ln fun hlast => ?_
    rw [hlast]
    rfl

end Drain

/-! ## 4. Words on their way -/

/-- **Which word is where**: the words `ws` in flight, oldest first, are in the logarithm, in the divider
    and in the subtractor, and those in the subtractor are in the alignment FIFO as well. -/
def LogFlight (F : LogFn) (ws : List (BitVec 32)) (a : Align) (sub div ln : List (BitVec 32)) : Prop :=
  ∃ L1 L2 L3, ws = L1 ++ L2 ++ L3 ∧ ln = L1.map F.logit ∧ div = L2.map F.odds ∧ sub = L3.map F.less ∧
    a.Holds L3

/-- **One edge of the words in flight**: the word `x` is issued, and what comes out of the logarithm is
    the logit of the oldest. -/
theorem logFlight_step {F : LogFn} {ws : List (BitVec 32)} {a : Align} {sub div ln : List (BitVec 32)}
    (h : LogFlight F ws a sub div ln) (hlen : ws.length < 32) {x subOut divOut lnOut : Option (BitVec 32)}
    {sub' div' ln' : List (BitVec 32)} (hsub : subOut.toList ++ sub' = sub ++ (x.map F.less).toList)
    (hhas : subOut.isSome = true → sub ≠ [])
    (hdiv : divOut.toList ++ div' = div ++ (subOut.map (F.div a.front)).toList)
    (hln : lnOut.toList ++ ln' = ln ++ (divOut.map F.ln).toList) :
    ∃ (y : Option (BitVec 32)) (ws' : List (BitVec 32)), ws ++ x.toList = y.toList ++ ws' ∧ lnOut = y.map F.logit ∧
      LogFlight F ws' (a.move x subOut.isSome) sub' div' ln' := by
  obtain ⟨L1, L2, L3, rfl, rfl, rfl, rfl, ha⟩ := h
  obtain ⟨y3, L3', h3, hy3, rfl⟩ := stage_moves hsub
  -- the result of the subtractor meets the word it belongs to
  have hmeet : subOut.map (F.div a.front) = y3.map F.odds := by
    cases y3 with
    | none => rw [hy3]; rfl
    | some k =>
        cases L3 with
        | nil => exact absurd rfl (hhas (by rw [hy3]; rfl))
        | cons k' L3 =>
            obtain rfl : k' = k := (List.cons.inj h3).1
            rw [hy3, Align.holds_front ha]
            rfl
  rw [hmeet] at hdiv
  obtain ⟨y2, L2', h2, hy2, rfl⟩ := stage_moves hdiv
  have hlog : divOut.map F.ln = y2.map F.logit := by
    rw [hy2, Option.map_map]
    rfl
  rw [hlog] at hln
  obtain ⟨y1, L1', h1, hy1, rfl⟩ := stage_moves hln
  have hsome : subOut.isSome = y3.isSome := by rw [hy3, Option.isSome_map]
  refine ⟨y1, L1' ++ L2' ++ L3', ?_, hy1, L1', L2', L3', rfl, rfl, rfl, rfl, ?_⟩
  · calc L1 ++ L2 ++ L3 ++ x.toList = L1 ++ L2 ++ (L3 ++ x.toList) := List.append_assoc ..
      _ = L1 ++ (L2 ++ y3.toList) ++ L3' := by rw [h3]; simp only [List.append_assoc]
      _ = L1 ++ y2.toList ++ L2' ++ L3' := by rw [h2]; simp only [List.append_assoc]
      _ = y1.toList ++ (L1' ++ L2' ++ L3') := by rw [h1]; simp only [List.append_assoc]
  · rw [hsome]
    refine Align.holds_move ha ?_ h3
    simp only [List.length_append] at hlen
    omega

theorem logFlight_nil {F : LogFn} {a : Align} (ha : a.Holds []) : LogFlight F [] a [] [] [] :=
  ⟨[], [], [], rfl, rfl, rfl, rfl, ha⟩

/-- With no word in flight the cores are empty. -/
theorem logFlight_empty {F : LogFn} {a : Align} {sub div ln : List (BitVec 32)}
    (h : LogFlight F [] a sub div ln) : sub = [] ∧ div = [] ∧ ln = [] ∧ a.Holds [] := by
  obtain ⟨L1, L2, L3, hnil, rfl, rfl, rfl, ha⟩ := h
  obtain ⟨h12, rfl⟩ := List.append_eq_nil_iff.mp hnil.symm
  obtain ⟨rfl, rfl⟩ := List.append_eq_nil_iff.mp h12
  exact ⟨rfl, rfl, rfl, ha⟩

section Edge

variable {ls ld ll : Nat} {F : LogFn} {p : LogPipe ls ld ll} {ws : List (BitVec 32)}

/-- **The words in flight over an edge of the module.** -/
theorem logFlight_edge (hs : 0 < ls) (hd : 0 < ld) (hl : 0 < ll)
    (h : LogFlight F ws p.regs.align p.sub.items p.div.items p.ln.items) (hlen : ws.length < 32) (regs : Log) :
    ∃ (y : Option (BitVec 32)) (ws' : List (BitVec 32)), ws ++ p.issued.toList = y.toList ++ ws' ∧
      p.ln.last = y.map F.logit ∧
      LogFlight F ws' (p.regs.alignEdge p.cores) (p.moved F regs).sub.items (p.moved F regs).div.items
        (p.moved F regs).ln.items := by
  have hhas : p.sub.last.isSome = true → p.sub.items ≠ [] := by
    intro hsome hnil
    obtain ⟨v, hv⟩ := Option.isSome_iff_exists.mp hsome
    have hmem := Delay.mem_of_last hv
    rw [hnil] at hmem
    cases hmem
  -- a result that comes back is of a pending subtraction
  have hpending : p.sub.last.isSome = true → p.regs.align.subPending ≠ 0 := by
    intro hsome
    obtain ⟨L1, L2, L3, -, -, -, hsub, ha⟩ := h
    refine (Align.pending_ne_zero ha).mpr fun hnil => hhas hsome ?_
    rw [hsub, hnil]
    rfl
  have hdivided : p.divided F = p.sub.last.map (F.div p.regs.align.front) := by
    unfold LogPipe.divided
    cases hsome : p.sub.last with
    | none => exact ite_self _
    | some v => rw [if_pos (bne_iff_ne.mpr (hpending (by rw [hsome]; rfl)))]
  have hmove : p.regs.alignEdge p.cores = p.regs.align.move p.issued p.sub.last.isSome := by
    have htake : (p.cores.subResValid && p.cores.divAReady && p.cores.divBReady) = p.sub.last.isSome := by
      show (p.sub.last.isSome && true && true) = _
      rw [Bool.and_true, Bool.and_true]
    rw [alignEdge_move (fun ht _ => hpending (htake.symm.trans ht)), htake]
    cases hsome : p.sub.last.isSome with
    | false => rfl
    | true => rw [bne_iff_ne.mpr (hpending hsome)]; rfl
  rw [hmove]
  refine logFlight_step h hlen (Delay.shift_items p.sub hs _) hhas ?_ (Delay.shift_items p.ln hl _)
  rw [← hdivided]
  exact Delay.shift_items p.div hd _

end Edge

/-! ## 5. A request -/

/-- **The response of `log` to a request.** -/
def StreamRequest.logAnswer (F : LogFn) (r : StreamRequest) : List SlotBeat := r.reply (mapWords F.logit)

/-- **Where the request `r` is** once `j` of its beats are taken and `out` is sent; the words issued and not
    packed are in the cores. -/
inductive LogAt {ls ld ll : Nat} (F : LogFn) (r : StreamRequest) :
    Nat → LogPipe ls ld ll → List SlotBeat → Prop where
  | fresh {p} (hp : p.Idle) : LogAt F r 0 p []
  | serves {w n j p out} (hpos : LogPos F.logit r w n j p.regs out)
      (hf : LogFlight F (w.drop n) p.regs.align p.sub.items p.div.items p.ln.items) : LogAt F r j p out
  | done {p out} (hp : p.Idle) (hout : out = r.logAnswer F) : LogAt F r r.lines.length p out

section Request

variable {ls ld ll : Nat} {F : LogFn} {p : LogPipe ls ld ll} {r : StreamRequest} {w : List (BitVec 32)}
  {n j : Nat} {out : List SlotBeat}

/-- What comes out of the logarithm is owed, and is the result of the next word to be packed; the words
    in flight move on. -/
theorem logFlight_serves (hs : 0 < ls) (hd : 0 < ld) (hl : 0 < ll) (hpos : LogPos F.logit r w n j p.regs out)
    (h : LogFlight F (w.drop n) p.regs.align p.sub.items p.div.items p.ln.items) (regs : Log) :
    (p.regs.resultFire p.cores = true → ∀ x, w[n]? = some x → p.cores.logResData = F.logit x) ∧
      LogFlight F ((w ++ p.issued.toList).drop (n + (p.regs.resultFire p.cores).toNat))
        (p.regs.alignEdge p.cores) (p.moved F regs).sub.items (p.moved F regs).div.items
        (p.moved F regs).ln.items := by
  obtain ⟨howed, hfew⟩ := logPos_owed hpos
  have hlen : (w.drop n).length = p.regs.outstanding.toNat := by rw [List.length_drop]; omega
  obtain ⟨y, ws', hws, hlast, hflight⟩ := logFlight_edge hs hd hl h (by omega) regs
  have hidle : w.drop n = [] → p.ln.last = none := by
    intro hnone
    rw [hnone] at h
    exact Delay.last_within_zero (Delay.within_zero_iff.mpr (logFlight_empty h).2.2.1)
  obtain ⟨hnext, hrest⟩ := next_result howed hws hlast hidle
  exact ⟨hnext, hrest ▸ hflight⟩

/-- The module stays idle. -/
theorem idle_tick (h : p.Idle) : (p.moved F (p.regs.tick p.cores p.regs)).Idle := by
  obtain ⟨h1, h2, h3, h4, h5, h6⟩ := h.regs
  have hflush : (p.regs.tick p.cores p.regs).flushCnt.toNat = p.regs.flushCnt.toNat - 1 := by
    have hedge := log_flush p.regs none false p.cores
    rw [log_quiet h1 h5 h3, ite_self] at hedge
    exact hedge
  have hdrained := drained_moved (F := F) h.drained (rests_issued h1 p.cores) (p.regs.tick p.cores p.regs)
  rw [← hflush] at hdrained
  exact ⟨⟨h1, h2, h3, h4, h5, h6⟩, alignEdge_rest h.align h1 p.cores, hdrained⟩

/-- With nothing in flight a module that is done is idle. -/
theorem logNext_at (h : LogNext F.logit r w n j p.regs out)
    (hf : LogFlight F (w.drop n) p.regs.align p.sub.items p.div.items p.ln.items) : LogAt F r j p out := by
  rcases h with hpos | hdone
  · exact .serves hpos hf
  · rw [hdone.packed, List.drop_length] at hf
    obtain ⟨h1, h2, h3, h4⟩ := logFlight_empty hf
    rw [hdone.beats]
    exact .done ⟨hdone.idle, h4, drained_empty h1 h2 h3 _⟩ hdone.out

/-- The first line of a request is taken; the cores are empty. -/
theorem logAt_first (h : p.Idle) (hz : p.regs.flushCnt = 0) :
    LogAt F r 1 (p.moved F (p.regs.tick p.cores (p.regs.take (r.first.beat r.more.isEmpty)))) [] := by
  have hdrained := drained_moved (F := F) h.drained (rests_issued h.regs.issuing p.cores)
    (p.regs.tick p.cores (p.regs.take (r.first.beat r.more.isEmpty)))
  rw [hz] at hdrained
  obtain ⟨h1, h2, h3⟩ := drained_items hdrained
  refine logNext_at (logPos_first h.regs hz p.cores) ?_
  rw [h1, h2, h3]
  exact logFlight_nil (alignEdge_rest h.align h.regs.issuing p.cores)

end Request

/-! ## 6. The service -/

/-- The edges after which the cores are empty. -/
noncomputable def LogPipe.drainTime {ls ld ll : Nat} (p : LogPipe ls ld ll) : Nat := sInf {m | p.Drained m}

/-- What is left of a line, in edges. -/
noncomputable def LogPipe.lineRank {ls ld ll : Nat} (p : LogPipe ls ld ll) : Nat :=
  if p.regs.issuing then 16 - p.regs.issueIdx.toNat + (ls + ld + ll) + 2
  else if p.regs.awaiting then p.drainTime + 2
  else if p.regs.respValid then 1 else 0

/-- What is left of the request. -/
noncomputable def LogPipe.rank {ls ld ll : Nat} (r : StreamRequest) (j : Nat) (p : LogPipe ls ld ll) : Nat :=
  p.regs.flushCnt.toNat + 200 * (r.lines.length - j) + p.lineRank

section Service

variable {ls ld ll : Nat} {F : LogFn} {p : LogPipe ls ld ll} {r : StreamRequest}

theorem drainTime_drained (p : LogPipe ls ld ll) : p.Drained p.drainTime :=
  Nat.sInf_mem (s := {m | p.Drained m}) ⟨ls + ld + ll, drained_any (Nat.le_refl _)⟩

theorem drainTime_le {m : Nat} (h : p.Drained m) : p.drainTime ≤ m := Nat.sInf_le h

/-- **A line under way gets on at every edge**: once its words are issued, the cores are not empty. -/
theorem logLoad_rank {line : BitVec 512} (h : LogLoad F.logit line p.regs)
    (hbusy : p.regs.issuing = false → 0 < p.drainTime) (o : Option SlotBeat) (t : Bool) :
    (p.edge F o t).lineRank < p.lineRank := by
  have hready := logLoad_tready h
  have hresp : (p.regs.respValid && t) = false := by rw [h.respValid]; rfl
  obtain ⟨hstep, -⟩ := log_step (o := o) hready hresp p.cores
  have hall := drainTime_le (drained_any (p := p.edge F o t) (Nat.le_refl (ls + ld + ll)))
  have hlow : (p.edge F o t).regs.issuing = false → (p.edge F o t).lineRank ≤ (p.edge F o t).drainTime + 2 := by
    intro hi
    unfold LogPipe.lineRank
    rw [hi]
    split_ifs <;> first | contradiction | omega
  cases hi : p.regs.issuing with
  | true =>
      have hfire : p.regs.issueFire p.cores = true := by rw [Log.issueFire, hi]; rfl
      have hrank : p.lineRank = 16 - p.regs.issueIdx.toNat + (ls + ld + ll) + 2 := by
        rw [LogPipe.lineRank, hi]
        rfl
      have hidx := p.regs.issueIdx.isLt
      cases hi' : (p.edge F o t).regs.issuing with
      | true =>
          have hcount := issuedWords_step hstep.words issueFire_issuing
          have hi'' : (p.regs.edge o t p.cores).issuing = true := hi'
          rw [hi'', hi, hfire] at hcount
          have hnext : (p.edge F o t).regs.issueIdx.toNat = p.regs.issueIdx.toNat + 1 := hcount
          have hlt := (p.edge F o t).regs.issueIdx.isLt
          have hrank' : (p.edge F o t).lineRank =
              16 - (p.edge F o t).regs.issueIdx.toNat + (ls + ld + ll) + 2 := by
            rw [LogPipe.lineRank, hi']
            rfl
          omega
      | false =>
          have hlow' := hlow hi'
          omega
  | false =>
      have hwait : p.regs.awaiting = true := by rw [h.awaiting, hi]; rfl
      have hrank : p.lineRank = p.drainTime + 2 := by
        rw [LogPipe.lineRank, hi, hwait]
        rfl
      have hnext : (p.edge F o t).regs.issuing = false := by
        have hissuing := hstep.words.issuing
        rw [hi, Bool.and_false] at hissuing
        exact hissuing
      have hless : (p.edge F o t).drainTime ≤ p.drainTime - 1 := drainTime_le
        (drained_moved (drainTime_drained p) (rests_issued hi p.cores) (p.regs.edge o t p.cores))
      have hpos := hbusy hi
      have hlow' := hlow hnext
      omega

/-- While a result is owed the cores are not empty. -/
theorem logFlight_busy {ws : List (BitVec 32)}
    (h : LogFlight F ws p.regs.align p.sub.items p.div.items p.ln.items) (hws : ws ≠ []) : 0 < p.drainTime := by
  refine Nat.pos_of_ne_zero fun hzero => hws ?_
  have hdrained := drainTime_drained p
  rw [hzero] at hdrained
  obtain ⟨h1, h2, h3⟩ := drained_items hdrained
  obtain ⟨L1, L2, L3, rfl, hL1, hL2, hL3, -⟩ := h
  rw [List.eq_nil_of_map_eq_nil (hL1.symm.trans h3), List.eq_nil_of_map_eq_nil (hL2.symm.trans h2),
    List.eq_nil_of_map_eq_nil (hL3.symm.trans h1)]
  rfl

theorem lineRank_rests (h : p.regs.Rests) : p.lineRank = 0 := by
  rw [LogPipe.lineRank, h.issuing, h.awaiting, h.respValid]
  rfl

theorem lineRank_offer {line : BitVec 512} {last : Bool} (h : LogOffer F.logit line last p.regs) : p.lineRank = 1 := by
  rw [LogPipe.lineRank, h.issuing, h.awaiting, h.respValid]
  rfl

theorem lineRank_le (p : LogPipe ls ld ll) : p.lineRank ≤ 18 + (ls + ld + ll) := by
  have hdrain := drainTime_le (drained_any (p := p) (Nat.le_refl (ls + ld + ll)))
  unfold LogPipe.lineRank
  split_ifs <;> omega

theorem edge_flush (p : LogPipe ls ld ll) (o : Option SlotBeat) (t : Bool) :
    (p.edge F o t).regs.flushCnt.toNat = p.regs.flushCnt.toNat - 1 :=
  log_flush p.regs o t p.cores

theorem rests_tready {s : Log} (h : s.Rests) : s.tready = (s.flushCnt == 0) := by
  rw [Log.tready, h.issuing, h.awaiting, h.respValid]
  rfl

/-- **What an edge leaves to do**: it is never more, and less if the edge holds nothing back. -/
theorem logPos_rank (hsum : ls + ld + ll ≤ 128) {w : List (BitVec 32)} {n j : Nat} {out : List SlotBeat}
    (hpos : LogPos F.logit r w n j p.regs out)
    (hf : LogFlight F (w.drop n) p.regs.align p.sub.items p.div.items p.ln.items) (o : Option SlotBeat) (t : Bool) :
    (p.edge F o t).rank r (j + (if p.regs.tready then o else none).toList.length) ≤ p.rank r j ∧
      (o = r.beats[j]? → t = true →
        (p.edge F o t).rank r (j + (if p.regs.tready then o else none).toList.length) < p.rank r j) := by
  have hflush := edge_flush (F := F) p o t
  rw [logPos_flushed hpos] at hflush
  have hcount : (p.edge F o t).regs.flushCnt.toNat = 0 := hflush
  unfold LogPipe.rank
  rw [hcount]
  cases hpos with
  | between h0 hj hk ha hq hz hw hn hout =>
      have hlen : r.lines.length = r.headers + r.data.length := StreamRequest.lines_length
      rw [rests_tready hq, hz, lineRank_rests hq]
      cases o with
      | none =>
          have hrests : (p.edge F none t).regs.Rests := by
            have hedge := log_quiet hq.issuing hq.outstanding hq.respValid none t p.cores
            rw [ite_self] at hedge
            show (p.regs.edge none t p.cores).Rests
            rw [hedge]
            exact ⟨hq.issuing, hq.awaiting, hq.respValid, hq.outstanding, hq.packIdx⟩
          rw [lineRank_rests hrests, ite_self]
          refine ⟨Nat.le_refl _, fun hnone => ?_⟩
          have hend := List.getElem?_eq_none_iff.mp hnone.symm
          rw [StreamRequest.beats_length] at hend
          omega
      | some b =>
          have hline := lineRank_le (p.edge F (some b) t)
          have hmore : 0 + 200 * (r.lines.length - (j + 1)) + (p.edge F (some b) t).lineRank <
              0 + 200 * (r.lines.length - j) + 0 := by omega
          exact ⟨Nat.le_of_lt hmore, fun _ _ => hmore⟩
  | load hj hl ha hload hlast hw hn hout =>
      have hless := logLoad_rank hload (fun hi => logFlight_busy hf fun hnil => ?_) o t
      · rw [logLoad_tready hload]
        show 0 + 200 * (r.lines.length - j) + _ ≤ _ ∧ (_ → _ → _ < _)
        exact ⟨by omega, fun _ _ => by omega⟩
      · have hwords := hload.words
        have howed := (logPos_owed (.load hj hl ha hload hlast hw hn hout)).1
        have hlen := congrArg List.length hnil
        rw [List.length_drop, List.length_nil] at hlen
        rw [hi] at hwords
        refine filling_owes hwords (BitVec.eq_of_toNat_eq ?_)
        show p.regs.outstanding.toNat = 0
        omega
  | offer hj hl ha hoffer hw hn hout =>
      rw [logOffer_tready hoffer, lineRank_offer hoffer]
      show 0 + 200 * (r.lines.length - j) + _ ≤ _ ∧ (_ → _ → _ < _)
      cases t with
      | false =>
          rw [lineRank_offer (p := p.edge F o false) (logOffer_edge hoffer o p.cores)]
          exact ⟨by omega, nofun⟩
      | true =>
          have hquiet : (p.edge F o true).lineRank = 0 := by
            have hedge : p.edge F o true = p.moved F _ :=
              congrArg (p.moved F) (log_accept hoffer.issuing hoffer.respValid hoffer.outstanding o p.cores)
            rw [hedge]
            exact lineRank_rests ⟨hoffer.issuing, hoffer.awaiting, rfl, hoffer.outstanding, hoffer.packIdx⟩
          rw [hquiet]
          exact ⟨by omega, fun _ _ => by omega⟩

/-- What an edge owes to a request. -/
def LogPipe.Advances (F : LogFn) (r : StreamRequest) (j : Nat) (p : LogPipe ls ld ll) (out : List SlotBeat)
    (o : Option SlotBeat) (t : Bool) : Prop :=
  Advance (logPipe F ls ld ll) r.beats (LogAt F r) (LogPipe.rank r) j p out o t ()

/-- An idle module takes nothing: only the countdown is left to do. -/
theorem logIdle_wait {j : Nat} {out : List SlotBeat} {o : Option SlotBeat} {t : Bool} (hp : p.Idle)
    (hwait : LogAt F r j (p.moved F (p.regs.tick p.cores p.regs)) out)
    (ht : (if p.regs.tready then o else none) = none)
    (hflush : o = r.beats[j]? → p.rank r j ≠ 0 → p.regs.flushCnt.toNat ≠ 0) :
    LogPipe.Advances F r j p out o t := by
  have hrests := hp.regs.rests
  have hedge : p.edge F o t = p.moved F (p.regs.tick p.cores p.regs) := by
    have hquiet := log_quiet hrests.issuing hrests.outstanding hrests.respValid o t p.cores
    rw [ht] at hquiet
    exact congrArg (p.moved F) hquiet
  have hcount := edge_flush (F := F) p o t
  have hidle := idle_tick (F := F) hp
  rw [← hedge] at hidle hwait
  have hrank : (p.edge F o t).rank r j + p.regs.flushCnt.toNat = p.rank r j + (p.regs.flushCnt.toNat - 1) := by
    rw [LogPipe.rank, LogPipe.rank, lineRank_rests hrests, lineRank_rests hidle.regs.rests, hcount]
    omega
  refine .silent ht ?_ hwait ?_ fun ho _ h0 => ?_
  · show (if p.regs.respValid && t then some p.regs.response else none) = none
    rw [hrests.respValid]
    rfl
  · show (p.edge F o t).rank r j ≤ p.rank r j
    omega
  · have hne := hflush ho h0
    show (p.edge F o t).rank r j < p.rank r j
    omega

/-- The first line is taken once the module has counted down. -/
theorem logFresh_edge (hsum : ls + ld + ll ≤ 128) (hp : p.Idle) (o : Option SlotBeat) (t : Bool)
    (hoff : o = none ∨ o = r.beats[0]?) : LogPipe.Advances F r 0 p [] o t := by
  have hrests := hp.regs.rests
  cases o with
  | none =>
      refine logIdle_wait hp (.fresh (idle_tick hp)) (ite_self _) fun hnone => ?_
      cases hnone
  | some b =>
      obtain rfl : r.first.beat r.more.isEmpty = b :=
        Option.some_injective _ (hoff.resolve_left (Option.some_ne_none b)).symm
      cases hready : p.regs.tready with
      | false =>
          refine logIdle_wait hp (.fresh (idle_tick hp)) (by rw [hready]; rfl) fun _ _ hzero => ?_
          rw [rests_tready hrests, show p.regs.flushCnt = 0 from BitVec.eq_of_toNat_eq hzero] at hready
          cases hready
      | true =>
          have hz : p.regs.flushCnt = 0 := by
            rw [rests_tready hrests] at hready
            exact beq_iff_eq.mp hready
          have hedge : p.edge F (some (r.first.beat r.more.isEmpty)) t =
              p.moved F (p.regs.tick p.cores (p.regs.take (r.first.beat r.more.isEmpty))) := by
            have hquiet := log_quiet hrests.issuing hrests.outstanding hrests.respValid
              (some (r.first.beat r.more.isEmpty)) t p.cores
            rw [hready] at hquiet
            exact congrArg (p.moved F) hquiet
          have hcount := edge_flush (F := F) p (some (r.first.beat r.more.isEmpty)) t
          have hline := lineRank_le (p.edge F (some (r.first.beat r.more.isEmpty)) t)
          have hlen : 0 < r.lines.length := Nat.succ_pos _
          have hnext := logAt_first (F := F) (r := r) hp hz
          rw [← hedge] at hnext
          refine .take (b := r.first.beat r.more.isEmpty) ?_ ?_ hnext ?_
          · show (if p.regs.tready then some _ else none) = some _
            rw [hready]
            rfl
          · show (if p.regs.respValid && t then some p.regs.response else none) = none
            rw [hrests.respValid]
            rfl
          · show (p.edge F _ t).rank r 1 < p.rank r 0
            rw [LogPipe.rank, LogPipe.rank, hcount]
            omega

/-- **One edge of a request.** -/
theorem logAt_edge (hs : 0 < ls) (hd : 0 < ld) (hl : 0 < ll) (hsum : ls + ld + ll ≤ 128) {j : Nat}
    {out : List SlotBeat} (h : LogAt F r j p out) (o : Option SlotBeat) (t : Bool)
    (hoff : o = none ∨ o = r.beats[j]?) : LogPipe.Advances F r j p out o t := by
  cases h with
  | fresh hp => exact logFresh_edge hsum hp o t hoff
  | serves hpos hf =>
      obtain ⟨hres, hflight⟩ := logFlight_serves hs hd hl hpos hf (p.regs.edge o t p.cores)
      rw [← log_align p.regs o t p.cores] at hflight
      obtain ⟨hle, hlt⟩ := logPos_rank hsum hpos hf o t
      exact ⟨logNext_at (p := p.edge F o t) (logPos_edge hpos hres o t hoff) hflight, hle, fun ho hw _ => hlt ho hw⟩
  | done hp hout =>
      have hnil : r.beats[r.lines.length]? = none :=
        List.getElem?_eq_none (Nat.le_of_eq r.beats_length)
      obtain rfl : o = none := hoff.elim id fun e => e.trans hnil
      refine logIdle_wait hp (.done (idle_tick hp) hout) (ite_self _) fun _ h0 => ?_
      rw [LogPipe.rank, lineRank_rests hp.regs.rests, Nat.sub_self] at h0
      omega

theorem logPos_le {w : List (BitVec 32)} {n j : Nat} {s : Log} {out : List SlotBeat} {g : BitVec 32 → BitVec 32}
    (h : LogPos g r w n j s out) : 0 < j ∧ j ≤ r.lines.length := by
  have hlen : r.lines.length = r.headers + r.data.length := StreamRequest.lines_length
  cases h with
  | between h0 hj hk => omega
  | load hj hl => have hlt := (List.getElem?_eq_some_iff.mp hl).1; omega
  | offer hj hl => have hlt := (List.getElem?_eq_some_iff.mp hl).1; omega

theorem logAt_le {j : Nat} {out : List SlotBeat} (h : LogAt F r j p out) : j ≤ r.lines.length := by
  cases h with
  | fresh => exact Nat.zero_le _
  | serves hpos => exact (logPos_le hpos).2
  | done => exact Nat.le_refl _

/-- A request of which nothing is left to do is answered. -/
theorem logAt_finish {j : Nat} {out : List SlotBeat} (h : LogAt F r j p out) (h0 : p.rank r j = 0) :
    out = r.logAnswer F ∧ p.Idle := by
  have hlen : r.lines.length = r.headers + r.data.length := StreamRequest.lines_length
  have hpos : 0 < r.lines.length := Nat.succ_pos _
  unfold LogPipe.rank at h0
  cases h with
  | fresh => omega
  | serves hpos hf =>
      cases hpos with
      | between h0' hj hk => omega
      | load _ _ _ hload =>
          rw [LogPipe.lineRank, hload.awaiting] at h0
          cases hi : p.regs.issuing with
          | true => rw [hi, if_pos rfl] at h0; omega
          | false => rw [hi, if_neg Bool.false_ne_true, Bool.not_false, if_pos rfl] at h0; omega
      | offer _ _ _ hoffer => rw [lineRank_offer hoffer] at h0; omega
  | done hp hout => exact ⟨hout, hp⟩

/-- The module takes a beat after the last one only when it is done. -/
theorem logAt_ends {j : Nat} {out : List SlotBeat} (h : LogAt F r j p out) (hj : j = r.lines.length)
    (hready : p.regs.tready = true) : out = r.logAnswer F ∧ p.Idle := by
  have hpos : 0 < r.lines.length := Nat.succ_pos _
  cases h with
  | fresh => omega
  | serves hpos => rw [logPos_full hpos (Nat.le_of_eq hj.symm)] at hready; cases hready
  | done hp hout => exact ⟨hout, hp⟩

theorem logAt_begun {j : Nat} {out : List SlotBeat} (h : LogAt F r j p out) : out <+: r.logAnswer F := by
  cases h with
  | fresh => exact List.nil_prefix
  | serves hpos => exact logPos_sent hpos
  | done _ hout => exact hout ▸ List.prefix_rfl

theorem logAt_silent {j : Nat} {out : List SlotBeat} (h : LogAt F r j p out) (hj : j = 0) :
    p.regs.respValid = false := by
  cases h with
  | fresh hp => exact hp.regs.respValid
  | serves hpos => have := (logPos_le hpos).1; omega
  | done hp => exact hp.regs.respValid

theorem logPipe_blind {o : Option SlotBeat} {t : Bool} (h : p.regs.tready = false) :
    p.edge F o t = p.edge F none t :=
  congrArg (p.moved F) (log_blind h o t p.cores)

/-- **`log` serves every request.** -/
noncomputable def logServer (F : LogFn) (hs : 0 < ls) (hd : 0 < ld) (hl : 0 < ll) (hsum : ls + ld + ll ≤ 128) :
    Server (logPipe F ls ld ll) (fun _ => True) (StreamRequest.logAnswer F) where
  service r _ :=
    { Inv := LogAt F r
      rank := LogPipe.rank r
      bound := 255 + 200 * r.lines.length
      start := fun {p} (hp : p.Idle) => by
        refine ⟨.fresh hp, ?_⟩
        have hflush := p.regs.flushCnt.isLt
        show p.regs.flushCnt.toNat + 200 * (r.lines.length - 0) + p.lineRank ≤ _
        rw [lineRank_rests hp.regs.rests]
        omega
      edge := fun h o t _ hoff => logAt_edge hs hd hl hsum h o t hoff
      finish := logAt_finish }
  bound r := 255 + 200 * r.lines.length
  within _ _ := Nat.le_refl _
  length r _ := r.reply_length _
  blind _ _ h := logPipe_blind h
  mute _ _ _ := rfl
  begun := logAt_begun
  silent {_ _ p _} t h := by
    show (if p.regs.respValid && t then some p.regs.response else none) = none
    rw [logAt_silent h rfl]
    rfl
  ends {r _ _ _ _} h hready := logAt_ends h r.beats_length hready
  all {r _ j p _} h h0 := by
    have hle := logAt_le h
    have hzero : p.regs.flushCnt.toNat + 200 * (r.lines.length - j) + p.lineRank = 0 := h0
    rw [r.beats_length]
    omega
  rests {p} t _ (hp : p.Idle) := by
    have hedge := log_quiet hp.regs.issuing hp.regs.outstanding hp.regs.respValid none t p.cores
    rw [ite_self] at hedge
    refine ⟨?_, ?_⟩
    · show (p.moved F (p.regs.edge none t p.cores)).Idle
      rw [hedge]
      exact idle_tick hp
    · show (if p.regs.respValid && t then some p.regs.response else none) = none
      rw [hp.regs.respValid]
      rfl

end Service

/-! ## 7. Every stream -/

/-- A reset makes the module idle, whatever the cores hold. -/
theorem logPipe_reset {ls ld ll : Nat} (F : LogFn) (hsum : ls + ld + ll ≤ 128) (p : LogPipe ls ld ll) :
    (p.reset F).Idle :=
  ⟨log_idle_reset _, ⟨rfl, rfl, fun _ _ h => nomatch h⟩, drained_any hsum⟩

/-- **`log` pairs every operand with its own result, across lines, requests and resets.** Over cores of
    any latencies that sum up to less than the 128 edges counted after a reset, from a reset of any
    state, with any gaps, stalls and resets: what is sent for a request that no reset cut is its answer,
    and nothing is sent that does not begin the answer of the request under way; with nothing held back
    all requests are answered. A beat of an answer has the logits of the words of its line. -/
theorem log_stream (F : LogFn) {ls ld ll : Nat} (hs : 1 ≤ ls) (hd : 1 ≤ ld) (hl : 1 ≤ ll)
    (hsum : ls + ld + ll < 128) (requests : List StreamRequest) (p : LogPipe ls ld ll)
    (is : List (ResetIn (logPipe F ls ld ll))) :
    StreamAnswers (StreamRequest.logAnswer F) requests
      (run (ResetStream.clock (LogPipe.reset F)) (.start (p.reset F) requests) is) ∧
    (∀ js : List (ResetIn (logPipe F ls ld ll)), (∀ j ∈ js, j.rst = false) →
      (requests.map fun r => 255 + 200 * r.lines.length).sum ≤ js.countP (fun j => j.valid && j.mTready) →
      (run (ResetStream.clock (LogPipe.reset F)) (.start (p.reset F) requests) (is ++ js)).rest = [] ∧
        ∀ a ∈ (run (ResetStream.clock (LogPipe.reset F)) (.start (p.reset F) requests) (is ++ js)).now,
          a.sent = a.request.logAnswer F) ∧
    ∀ r : StreamRequest, (r.logAnswer F).length = r.data.length ∧
      ∀ k l, r.data[k]? = some l → ∃ b, (r.logAnswer F)[k]? = some b ∧
        b.bytes = r.first.bytes - (if r.first.isHeader then 64 else 0) ∧ b.session = r.first.session ∧
        b.tlast = decide (k + 1 = r.data.length) ∧
        ∀ i, word b.payload i = F.ln (F.div (word l.payload i) (F.sub 0x3F800000 (word l.payload i))) := by
  have hsum' : ls + ld + ll ≤ 128 := Nat.le_of_lt hsum
  have hreset : ∀ q : LogPipe ls ld ll, (q.reset F).Idle := logPipe_reset F hsum'
  have hok : ∀ r ∈ requests, True := fun _ _ => trivial
  obtain ⟨hat, hbooks⟩ := server_run (logServer F hs hd hl hsum') hreset hok p is
  refine ⟨answers_of_at hat hbooks, fun js hjs henough => ?_, fun r => ⟨r.reply_length _, fun k l hk => ?_⟩⟩
  · refine server_finishes (logServer F hs hd hl hsum') hreset hok p is js hjs ?_
    have hcount := count_input (ResetStream.clock (LogPipe.reset F))
      (fun j : ResetIn (logPipe F ls ld ll) => j.valid && j.mTready)
      (run (ResetStream.clock (LogPipe.reset F)) (.start (p.reset F) requests) is) js
    exact hcount ▸ henough
  · exact ⟨_, r.reply_getElem? _ hk, rfl, rfl, rfl, fun i => word_mapWords F.logit l.payload i⟩

/-- Cores of latency one. -/
def shortLog : LogPipe 1 1 1 := ⟨Log.reset fun _ => 0, .empty, .empty, .empty⟩

/-- Cores that compute with integers. -/
def integerFn : LogFn := ⟨(· - ·), (· / ·), fun x => x⟩

def logEdge (rst : Bool) : ResetIn (logPipe integerFn 1 1 1) := ⟨⟨true, true, ()⟩, rst⟩

/-- A header with one data line and a request without a header: a reset comes 140 edges after the first,
    with words of the first line in the cores. -/
theorem log_stream_reset :
    let requests : List StreamRequest :=
      [⟨⟨128, 7, BitVec.allOnes 512⟩, [⟨128, 9, 0x900000005⟩]⟩, ⟨⟨64, 8, 0x700000003⟩, []⟩]
    let y := run (ResetStream.clock (LogPipe.reset integerFn)) (.start (shortLog.reset integerFn) requests)
      (List.replicate 140 (logEdge false) ++ [logEdge true] ++ List.replicate 1200 (logEdge false))
    StreamAnswers (StreamRequest.logAnswer integerFn) requests y ∧ y.rest = [] ∧
      ∀ a ∈ y.now, a.sent = a.request.logAnswer integerFn := by
  intro requests y
  have h := fun is => log_stream integerFn (by decide) (by decide) (by decide) (by decide) requests shortLog is
  refine ⟨(h _).1, (h (List.replicate 140 (logEdge false) ++ [logEdge true])).2.1 _ (fun j hj => ?_) ?_⟩
  · rw [List.eq_of_mem_replicate hj]
    rfl
  · rw [List.countP_replicate]
    decide

end Frac.Slots
