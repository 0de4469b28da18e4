/-
  File:      Frac/Slots/LogOperands.lean
  Subject:   `log.v` over cores whose operand channels are ready when they like, each on its own.

  The words of a line go to both channels of the subtractor at one edge (`issue_fire`), and to channel A
  of the divider only together with the result of the subtractor (`align_pop`). Channel B of the divider is
  offered that result without a look at channel A (`sub_res_real`).

  * `LogJoin` -- the module with its cores; `LogJoin.Joint` -- channel B of the divider is not ready before
    channel A is, when a result is there for both;
  * `LogFlow` -- **every core has the words of the requests, in order**, `logFlow_moved` -- at edges that
    are joint;
  * `logFeeding` -- with which the requests are answered one after the other.
-/
import Frac.Lib.Join
import Frac.Slots.LogStream

namespace Frac.Slots

open Bits Clocked

/-! ## 1. The module with its cores -/

/-- The module with its cores: what each has taken, and how many of its results were taken. -/
structure LogJoin where
  regs : Log
  sub : Join (BitVec 32) (BitVec 32)
  div : Join (BitVec 32) (BitVec 32)
  ln : Core (BitVec 32)

/-- What the cores do at one edge. -/
structure LogPins where
  sub : JoinPins
  div : JoinPins
  lnReady : Bool
  lnShown : Bool

namespace LogJoin

/-- After `rst`, with no word in the cores. -/
def start (mem : BitVec 5 → BitVec 32) : LogJoin := ⟨Log.reset mem, .empty, .empty, .empty⟩

variable (F : LogFn)

/-- `sub_res_data`, `div_res_data` and `log_res_data`, where they are valid. -/
def subRes (p : LogJoin) (i : LogPins) : Option (BitVec 32) := (p.sub.oldest i.sub).map fun x => F.sub x.1 x.2
def divRes (p : LogJoin) (i : LogPins) : Option (BitVec 32) := (p.div.oldest i.div).map fun x => F.div x.1 x.2
def lnRes (p : LogJoin) (i : LogPins) : Option (BitVec 32) := (p.ln.oldest i.lnShown).map F.ln

/-- What the cores drive. -/
def cores (p : LogJoin) (i : LogPins) : LogCores where
  subAReady := i.sub.aReady
  subBReady := i.sub.bReady
  subResValid := (p.subRes F i).isSome
  divAReady := i.div.aReady
  divBReady := i.div.bReady
  logResValid := (p.lnRes F i).isSome
  logResData := (p.lnRes F i).getD 0

/-- The word issued to the subtractor. -/
def issued (p : LogJoin) (i : LogPins) : Option (BitVec 32) := p.regs.issued (p.cores F i)

/-- `sub_res_ready`. -/
def subResReady (i : LogPins) : Bool := i.div.aReady && i.div.bReady

/-- `align_pop`. -/
def alignPop (p : LogJoin) (i : LogPins) : Bool :=
  (p.subRes F i).isSome && i.div.aReady && i.div.bReady && p.regs.align.subPending != 0

/-- `sub_res_real`, with the result. -/
def subResReal (p : LogJoin) (i : LogPins) : Option (BitVec 32) :=
  if p.regs.align.subPending != 0 then p.subRes F i else none

/-- The cores after an edge. -/
def moved (p : LogJoin) (i : LogPins) (regs : Log) : LogJoin where
  regs := regs
  sub := p.sub.edge i.sub ((p.issued F i).map fun _ => fpOne) (p.issued F i) (subResReady i)
  div := p.div.edge i.div (if p.alignPop F i then some p.regs.align.front else none) (p.subResReal F i) i.lnReady
  ln := p.ln.edge (if i.lnReady then p.divRes F i else none) i.lnShown true

def edge (p : LogJoin) (o : Option SlotBeat) (t : Bool) (i : LogPins) : LogJoin :=
  p.moved F i (p.regs.edge o t (p.cores F i))

/-- **Channel B of the divider is not ready before channel A is**, while the subtractor shows a result. -/
def Joint (p : LogJoin) (i : LogPins) : Prop :=
  (p.sub.oldest i.sub).isSome = true → i.div.bReady = true → i.div.aReady = true

instance (p : LogJoin) (i : LogPins) : Decidable (p.Joint i) :=
  inferInstanceAs (Decidable (_ → _ → _))

end LogJoin

def logJoin (F : LogFn) : SlotModule where
  State := LogJoin
  Cores := LogPins
  Idle p := p.regs.Idle
  tready p _ := p.regs.tready
  edge p o t i := p.edge F o t i
  sent p _ t := if p.regs.respValid && t then some p.regs.response else none
  willing p t i := p.regs.willing t (p.cores F i)

/-! ## 2. The words in the cores -/

/-- **Every core has the words `W`, in order**: the subtractor all of them, the divider those whose
    difference was taken, the logarithm those whose quotient was. -/
structure LogFlow (F : LogFn) (W : List (BitVec 32)) (p : LogJoin) : Prop where
  sub : p.sub.Fed (W.map fun x => (fpOne, x))
  div : p.div.Fed ((W.take p.sub.taken).map fun x => (x, F.less x))
  ln : p.ln.Fed ((W.take p.div.taken).map F.odds)
  align : p.regs.align.Holds (W.drop p.sub.taken)

section Flow

variable {F : LogFn} {W : List (BitVec 32)} {p : LogJoin} {i : LogPins}

theorem logFlow_order (h : LogFlow F W p) :
    p.ln.taken ≤ p.div.taken ∧ p.div.taken ≤ p.sub.taken ∧ p.sub.taken ≤ W.length := by
  have hsub := h.sub.taken
  have hdiv := h.div.taken
  have hln := h.ln.taken
  rw [List.length_map] at hsub
  rw [List.length_map, List.length_take] at hdiv hln
  omega

/-- The word whose difference is shown. -/
def LogJoin.compared (W : List (BitVec 32)) (p : LogJoin) (i : LogPins) : Option (BitVec 32) :=
  (⟨W, p.sub.taken⟩ : Core (BitVec 32)).oldest i.sub.shown

theorem sub_shows (h : LogFlow F W p) (i : LogPins) :
    p.sub.oldest i.sub = (p.compared W i).map (fun x => (fpOne, x)) ∧
      p.subRes F i = (p.compared W i).map F.less := by
  have hold : p.sub.oldest i.sub = (p.compared W i).map fun x => (fpOne, x) := h.sub.pairs.oldest i.sub.shown
  refine ⟨hold, ?_⟩
  rw [LogJoin.subRes, hold, Option.map_map]
  rfl

/-- It is the one at the front of the alignment FIFO. -/
theorem compared_front (h : LogFlow F W p) {v : BitVec 32} (hv : p.compared W i = some v) :
    p.regs.align.front = v ∧ p.regs.align.subPending ≠ 0 := by
  obtain ⟨hlt, hval⟩ := List.getElem?_eq_some_iff.mp (Core.oldest_some hv)
  have hholds := h.align
  rw [List.drop_eq_getElem_cons hlt, hval] at hholds
  exact ⟨Align.holds_front hholds, (Align.pending_ne_zero hholds).mpr (List.cons_ne_nil _ _)⟩

/-- The word whose difference is taken. -/
def LogJoin.subtracted (W : List (BitVec 32)) (p : LogJoin) (i : LogPins) : Option (BitVec 32) :=
  if subResReady i then p.compared W i else none

/-- **A result of the subtractor goes to both channels of the divider**, or to none. -/
theorem divider_pairs (h : LogFlow F W p) (hok : p.Joint i) :
    p.alignPop F i = (p.subtracted W i).isSome ∧
      (if i.div.aReady then if p.alignPop F i then some p.regs.align.front else none else none) =
        p.subtracted W i ∧
      (if i.div.bReady then p.subResReal F i else none) = (p.subtracted W i).map F.less := by
  obtain ⟨hold, hres⟩ := sub_shows h i
  unfold LogJoin.alignPop LogJoin.subResReal LogJoin.subtracted
  rw [hres]
  cases hv : p.compared W i with
  | none =>
      rw [ite_self, Option.map_none, Option.isSome_none, ite_self, ite_self]
      refine ⟨rfl, ?_, rfl⟩
      exact ite_self _
  | some v =>
      obtain ⟨hfront, hpending⟩ := compared_front h hv
      rw [hfront, bne_iff_ne.mpr hpending, if_pos rfl]
      have hjoint : i.div.bReady = true → i.div.aReady = true := hok (by rw [hold, hv]; rfl)
      unfold LogJoin.subResReady
      -- the two ready signals: B is not ready alone
      cases hb : i.div.bReady with
      | false => cases i.div.aReady <;> exact ⟨rfl, rfl, rfl⟩
      | true => rw [hjoint hb]; exact ⟨rfl, rfl, rfl⟩

/-- The alignment FIFO after an edge. -/
theorem alignEdge_pops (h : LogFlow F W p) :
    p.regs.alignEdge (p.cores F i) = p.regs.align.move (p.issued F i) (p.alignPop F i) := by
  refine alignEdge_move fun htake _ => ?_
  rw [Bool.and_eq_true, Bool.and_eq_true] at htake
  have hsome : (p.subRes F i).isSome = true := htake.1.1
  rw [(sub_shows h i).2, Option.isSome_map] at hsome
  obtain ⟨v, hv⟩ := Option.isSome_iff_exists.mp hsome
  exact (compared_front h hv).2

/-- **The subtractor** takes the word that is issued on both channels. -/
theorem sub_moved (h : LogFlow F W p) (i : LogPins) (regs : Log) :
    (p.moved F i regs).sub.Fed ((W ++ (p.issued F i).toList).map fun x => (fpOne, x)) := by
  have hfire : ∀ v, p.issued F i = some v → i.sub.aReady = true ∧ i.sub.bReady = true := by
    intro v hv
    unfold LogJoin.issued Log.issued at hv
    cases hf : p.regs.issueFire (p.cores F i) with
    | false => rw [hf] at hv; cases hv
    | true =>
        rw [Log.issueFire, Bool.and_eq_true, Bool.and_eq_true] at hf
        exact ⟨hf.1.2, hf.2⟩
  rw [List.map_append, ← Option.toList_map]
  refine Join.fed_edge h.sub ?_ ?_ (LogJoin.subResReady i)
  · cases hv : p.issued F i with
    | none => exact ite_self _
    | some v => rw [(hfire v hv).1]; rfl
  · cases hv : p.issued F i with
    | none => exact ite_self _
    | some v => rw [(hfire v hv).2]; rfl

theorem sub_taken_le (h : LogFlow F W p) (i : LogPins) (regs : Log) : (p.moved F i regs).sub.taken ≤ W.length := by
  have hfed := (Core.fed_edge h.sub.pairs none i.sub.shown (LogJoin.subResReady i)).taken
  rw [Option.toList_none, List.append_nil, List.length_map] at hfed
  exact hfed

/-- The words go through the subtractor in order. -/
theorem sub_leaves (h : LogFlow F W p) (i : LogPins) (regs : Log) :
    W.take (p.moved F i regs).sub.taken = W.take p.sub.taken ++ (p.subtracted W i).toList ∧
      W.drop p.sub.taken = (p.subtracted W i).toList ++ W.drop (p.moved F i regs).sub.taken :=
  h.sub.pairs.leaves none i.sub.shown (LogJoin.subResReady i)

/-- **The divider** takes a word with its difference. -/
theorem div_moved (h : LogFlow F W p) (hok : p.Joint i) (regs : Log) :
    (p.moved F i regs).div.Fed ((W.take (p.moved F i regs).sub.taken).map fun x => (x, F.less x)) := by
  obtain ⟨-, ha, hb⟩ := divider_pairs h hok
  rw [(sub_leaves h i regs).1, List.map_append, ← Option.toList_map]
  refine Join.fed_edge h.div (ha.trans ?_) (hb.trans ?_) i.lnReady
  · rw [Option.map_map]
    exact Option.map_id'.symm
  · rw [Option.map_map]
    rfl

/-- **The logarithm** takes a quotient. -/
theorem ln_moved (h : LogFlow F W p) (i : LogPins) (regs : Log) :
    (p.moved F i regs).ln.Fed ((W.take (p.moved F i regs).div.taken).map F.odds) := by
  have hfed := h.div.pairs
  have hle : (p.moved F i regs).div.taken ≤ p.sub.taken := by
    have hdiv := (Core.fed_edge hfed none i.div.shown i.lnReady).taken
    rw [Option.toList_none, List.append_nil, List.length_map, List.length_take] at hdiv
    exact Nat.le_trans hdiv (Nat.min_le_left _ _)
  have hin : (if i.lnReady then p.divRes F i else none) =
      ((⟨W.take p.sub.taken, p.div.taken⟩ : Core (BitVec 32)).left i.div.shown i.lnReady).map F.odds := by
    unfold LogJoin.divRes Join.oldest Core.left
    rw [hfed.oldest, Option.map_map]
    cases i.lnReady <;> rfl
  have htake : (W.take p.sub.taken).take (p.moved F i regs).div.taken = _ :=
    (hfed.leaves none i.div.shown i.lnReady).1
  rw [List.take_take, Nat.min_eq_left hle, show p.div.pairs.taken = p.div.taken from rfl, List.take_take,
    Nat.min_eq_left (logFlow_order h).2.1] at htake
  rw [htake, List.map_append, ← Option.toList_map, ← hin]
  exact Core.fed_edge h.ln _ i.lnShown true

/-- **One edge of the words in the cores**, if it is joint: the word issued is one more. -/
theorem logFlow_moved (h : LogFlow F W p) (hlen : W.length ≤ p.ln.taken + 16) (hok : p.Joint i) {regs : Log}
    (hregs : regs.align = p.regs.alignEdge (p.cores F i)) :
    LogFlow F (W ++ (p.issued F i).toList) (p.moved F i regs) := by
  have hst := sub_taken_le h i regs
  have hdt : (p.moved F i regs).div.taken ≤ W.length := by
    have hle := (div_moved h hok regs).taken
    rw [List.length_map, List.length_take] at hle
    exact Nat.le_trans hle (Nat.min_le_right _ _)
  refine ⟨sub_moved h i regs, ?_, ?_, ?_⟩
  · rw [List.take_append_of_le_length hst]
    exact div_moved h hok regs
  · rw [List.take_append_of_le_length hdt]
    exact ln_moved h i regs
  · show regs.align.Holds _
    rw [hregs, alignEdge_pops h, (divider_pairs h hok).1]
    refine Align.holds_move h.align ?_ ?_
    · obtain ⟨hln, hdiv, -⟩ := logFlow_order h
      rw [List.length_drop]
      omega
    · rw [List.drop_append_of_le_length hst, ← List.append_assoc, ← (sub_leaves h i regs).2]

/-- **What comes out of the logarithm** is the logit of the next word, and it is taken. -/
theorem ln_shows (h : LogFlow F W p) (i : LogPins) (regs : Log) :
    (p.moved F i regs).ln.taken = p.ln.taken + (p.lnRes F i).isSome.toNat ∧
      ∀ x, p.lnRes F i = some x → ∃ v, W[p.ln.taken]? = some v ∧ x = F.logit v := by
  have hres : p.lnRes F i = ((⟨W.take p.div.taken, p.ln.taken⟩ : Core (BitVec 32)).oldest i.lnShown).map F.logit := by
    rw [LogJoin.lnRes, h.ln.oldest, Option.map_map]
    rfl
  refine ⟨?_, fun x hx => ?_⟩
  · show p.ln.taken + (p.ln.left i.lnShown true).toList.length = _
    unfold LogJoin.lnRes Core.left
    rw [if_pos rfl, Option.isSome_map]
    cases p.ln.oldest i.lnShown <;> rfl
  · rw [hres] at hx
    obtain ⟨v, hv, rfl⟩ := Option.map_eq_some_iff.mp hx
    have hget : (W.take p.div.taken)[p.ln.taken]? = some v := Core.oldest_some hv
    obtain ⟨hlt, -⟩ := List.getElem?_eq_some_iff.mp hget
    rw [List.length_take] at hlt
    rw [List.getElem?_take_of_lt (by omega)] at hget
    exact ⟨v, hget, rfl⟩

/-- **One edge of the words of a request**: `H` are those of the requests before, `w` those issued, `n` of
    them packed. A result of the logarithm is owed, and is the one of the next word. -/
theorem logFlow_edge {H w : List (BitVec 32)} {n : Nat} (h : LogFlow F (H ++ w) p) (hln : p.ln.taken = H.length + n)
    (howed : n + p.regs.outstanding.toNat = w.length) (hmany : p.regs.outstanding.toNat ≤ 16) (hok : p.Joint i)
    (o : Option SlotBeat) (t : Bool) :
    LogFlow F (H ++ (w ++ (p.regs.issued (p.cores F i)).toList)) (p.edge F o t i) ∧
      (p.edge F o t i).ln.taken = H.length + (n + (p.regs.resultFire (p.cores F i)).toNat) ∧
      (p.regs.resultFire (p.cores F i) = true → ∀ x, w[n]? = some x → (p.cores F i).logResData = F.logit x) := by
  obtain ⟨htaken, hval⟩ := ln_shows h i (p.regs.edge o t (p.cores F i))
  have hnext : ∀ x, p.lnRes F i = some x → ∃ v, w[n]? = some v ∧ x = F.logit v := by
    intro x hx
    obtain ⟨v, hv, hxv⟩ := hval x hx
    rw [hln, List.getElem?_append_right (Nat.le_add_right _ _), Nat.add_sub_cancel_left] at hv
    exact ⟨v, hv, hxv⟩
  have hfire : p.regs.resultFire (p.cores F i) = (p.lnRes F i).isSome := by
    show ((p.lnRes F i).isSome && p.regs.outstanding != 0) = _
    cases hres : p.lnRes F i with
    | none => rfl
    | some x =>
        obtain ⟨v, hv, -⟩ := hnext x hres
        have hlt := (List.getElem?_eq_some_iff.mp hv).1
        refine bne_iff_ne.mpr fun hzero => ?_
        rw [hzero] at howed
        have hall : n + 0 = w.length := howed
        omega
  refine ⟨?_, ?_, fun hf x hx => ?_⟩
  · rw [← List.append_assoc]
    refine logFlow_moved h ?_ hok (log_align ..)
    rw [List.length_append]
    omega
  · rw [hfire, ← Nat.add_assoc, ← hln]
    exact htaken
  · rw [hfire] at hf
    obtain ⟨y, hy⟩ := Option.isSome_iff_exists.mp hf
    obtain ⟨v, hv, rfl⟩ := hnext y hy
    obtain rfl : v = x := Option.some_injective _ (hv.symm.trans hx)
    show (p.lnRes F i).getD 0 = _
    rw [hy]
    rfl

end Flow

/-! ## 3. One request after the other -/

/-- The words of the requests answered. -/
def answeredWords (c : List (StreamRequest × Unit)) : List (BitVec 32) := c.flatMap (·.1.allValues)

/-- **Between requests**: all words are through the cores. -/
structure LogRests (F : LogFn) (c : List (StreamRequest × Unit)) (p : LogJoin) : Prop where
  idle : p.regs.Idle
  flow : LogFlow F (answeredWords c) p
  all : p.ln.taken = (answeredWords c).length

/-- **Within the request `r`.** -/
def LogServes (F : LogFn) (c : List (StreamRequest × Unit)) (r : StreamRequest) (j : Nat) (p : LogJoin)
    (out : List SlotBeat) : Prop :=
  ∃ w n, LogPos F.logit r w n j p.regs out ∧ LogFlow F (answeredWords c ++ w) p ∧
    p.ln.taken = (answeredWords c).length + n

section Requests

variable {F : LogFn} {c : List (StreamRequest × Unit)} {r : StreamRequest} {w : List (BitVec 32)} {n j : Nat}
  {p : LogJoin} {i : LogPins} {out : List SlotBeat}

theorem logRests_start (F : LogFn) (mem : BitVec 5 → BitVec 32) : LogRests F [] (.start mem) :=
  ⟨log_idle_reset mem, ⟨Join.fed_empty, Join.fed_empty, Core.fed_empty, ⟨rfl, rfl, fun _ _ h => nomatch h⟩⟩, rfl⟩

/-- Where an edge takes a request, with the words in the cores. -/
theorem logNext_follows (h : LogNext F.logit r w n j p.regs out) (hf : LogFlow F (answeredWords c ++ w) p)
    (hn : p.ln.taken = (answeredWords c).length + n) :
    Follows (M := logJoin F) (LogRests F) (LogServes F) (fun r _ => r.logAnswer F) c r j p out := by
  rcases h with h | h
  · exact Or.inl ⟨w, n, h, hf, hn⟩
  · refine Or.inr ⟨h.beats.trans r.beats_length.symm, (), h.out, h.idle, ?_, ?_⟩
    · rw [answeredWords, List.flatMap_append, List.flatMap_singleton, ← h.issued]
      exact hf
    · rw [answeredWords, List.flatMap_append, List.flatMap_singleton, ← h.issued, List.length_append, ← h.packed]
      exact hn

/-- An edge of a module that rests: nothing goes into the cores, and nothing comes out. -/
theorem logRests_flow (h : LogRests F c p) (hok : p.Joint i) (o : Option SlotBeat) (t : Bool) :
    LogFlow F (answeredWords c) (p.edge F o t i) ∧ (p.edge F o t i).ln.taken = (answeredWords c).length := by
  have hflow := h.flow
  rw [← List.append_nil (answeredWords c)] at hflow
  obtain ⟨hf, hn, -⟩ := logFlow_edge hflow (n := 0) h.all (by rw [h.idle.outstanding]; rfl)
    (by rw [h.idle.outstanding]; exact Nat.zero_le 16) hok o t
  rw [rests_issued h.idle.issuing] at hf
  rw [rests_unowed h.idle.outstanding] at hn
  rw [Option.toList_none, List.append_nil, List.append_nil] at hf
  exact ⟨hf, hn⟩

/-- The first beat of a request is taken. -/
theorem logRests_first (h : LogRests F c p) (hok : p.Joint i) (hready : p.regs.tready = true) (r : StreamRequest)
    (t : Bool) :
    Follows (M := logJoin F) (LogRests F) (LogServes F) (fun r _ => r.logAnswer F) c r 1
      (p.edge F (some (r.first.beat r.more.isEmpty)) t i) [] := by
  have hz : p.regs.flushCnt = 0 := by
    rw [rests_tready h.idle.rests] at hready
    exact beq_iff_eq.mp hready
  obtain ⟨hf, hn⟩ := logRests_flow h hok (some (r.first.beat r.more.isEmpty)) t
  have hedge : p.regs.edge (some (r.first.beat r.more.isEmpty)) t (p.cores F i) =
      p.regs.tick (p.cores F i) (p.regs.take (r.first.beat r.more.isEmpty)) := by
    rw [log_quiet h.idle.issuing h.idle.outstanding h.idle.respValid, hready]
    rfl
  have hfirst := logPos_first (g := F.logit) (r := r) h.idle hz (p.cores F i)
  rw [← hedge] at hfirst
  rw [← List.append_nil (answeredWords c)] at hf
  exact logNext_follows hfirst hf hn

/-- **`log` answers one request after the other**, at edges that are joint. -/
def logFeeding (F : LogFn) : Feeding (logJoin F) LogJoin.Joint (fun r (_ : Unit) => r.logAnswer F) where
  Rests := LogRests F
  Serves := LogServes F
  blind {p t} o i h := congrArg (LogJoin.moved F p i) (log_blind h o t (p.cores F i))
  mute _ _ _ := rfl
  silent {_ p} t h := by
    show (if p.regs.respValid && t then some p.regs.response else none) = none
    rw [h.idle.respValid]
    rfl
  waits {c p i} t h hok := by
    obtain ⟨hf, hn⟩ := logRests_flow h hok none t
    refine ⟨?_, hf, hn⟩
    have hedge := log_quiet h.idle.issuing h.idle.outstanding h.idle.respValid none t (p.cores F i)
    rw [ite_self] at hedge
    show (p.regs.edge none t (p.cores F i)).Idle
    rw [hedge]
    exact ⟨h.idle.issuing, h.idle.awaiting, h.idle.respValid, h.idle.frameActive, h.idle.outstanding, h.idle.packIdx⟩
  begins {_ _ _ t} r h hok hready := logRests_first h hok hready r t
  goes {_ _ _ _ _ i} o t h hok hoff := by
    obtain ⟨w, n, hpos, hflow, hln⟩ := h
    obtain ⟨howed, hmany⟩ := logPos_owed hpos
    obtain ⟨hf, hn, hres⟩ := logFlow_edge hflow hln howed hmany hok o t
    exact logNext_follows (logPos_edge hpos hres o t hoff) hf hn
  full {_ r _ _ _} _ h hj := by
    obtain ⟨w, n, hpos, -⟩ := h
    rw [r.beats_length] at hj
    exact logPos_full hpos hj

end Requests

end Frac.Slots
