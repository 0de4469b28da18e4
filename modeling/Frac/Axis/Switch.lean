/-
  File:      Frac/Axis/Switch.lean
  Subject:   The stream switch with one output (taxi_axis_switch.sv with `M_COUNT(1)`, `S_REG_TYPE(0)`,
             `M_REG_TYPE(2)`) as slot_tx_axis_switch.sv sets it: fixed priority, the lowest port first,
             a grant kept until the beat that ends the frame is taken.

  * `Switch` -- the arbiter and the output register; `Switch.edge` -- one clock edge;
  * **`switch_run`** -- in every run, resets included, what was taken since the last reset is what was
    sent and what is held, and is made of whole frames, each of one port;
  * **`switch_blocked`** -- from the first beat of a frame to its last no other port's beat is taken,
    however long its own port has none;
  * **`switch_waits`** -- port 0 waits for one frame at most, port 1 for two;
  * **`switch_starves`** -- a port behind two that always offer is never granted.
-/
import Frac.Axis.Arbiter
import Frac.Axis.Register
import Frac.Lib.Frames

open Clocked

namespace Frac.Axis

variable {n : Nat} {β : Type}

/-- `ARB_ROUND_ROBIN(0)`, `ARB_BLOCK(1)`, `ARB_BLOCK_ACK(1)`, `LSB_HIGH_PRIO(1)`. -/
def switchArbiter : ArbiterConfig := ⟨false, true, true, true⟩

/-! ## 1. The module -/

structure Switch (n : Nat) (β : Type) where
  arb : Arbiter n
  reg : SkidRegs β

namespace Switch

def reset (n : Nat) (β : Type) : Switch n β := ⟨.reset n, .reset⟩

variable (last : β → Bool) (s : Switch n β) (offers : Fin n → Option β)

theorem alone_pos {n : Nat} (h : n = 1) : 0 < n := Nat.lt_of_lt_of_eq Nat.one_pos h.symm

/-- The granted port. A port that is the only one goes through without an arbiter (`S_COUNT == 1`), whose
    registers stand idle here. -/
def port : Option (Fin n) :=
  if h : n = 1 then some ⟨0, alone_pos h⟩
  else if h : s.arb.grantIndexReg.toNat < n then
    if s.arb.grantValidReg then some ⟨s.arb.grantIndexReg.toNat, h⟩ else none
  else none

/-- `int_axis.tdata` where `int_axis.tvalid` is high. -/
def intAxis : Option β := s.port.bind offers

/-- `int_s_axis_tready[m]`: of the granted port, where the output register is ready. -/
def sTready (m : Fin n) : Bool := s.port == some m && s.reg.sAxisTreadyReg

/-- `req`: a port that has the grant does not ask for it again. -/
def req : BitVec n := BitVec.ofFnLE fun m => (offers m).isSome && !s.arb.grantReg.getLsbD m

/-- `ack`: the granted port's last beat of a frame is taken. -/
def ack : BitVec n :=
  BitVec.ofFnLE fun m =>
    s.arb.grantReg.getLsbD m && (offers m).isSome && (s.intAxis offers).any last && s.reg.sAxisTreadyReg

/-- The clock edge with `rst` low. -/
def edge (ready : Bool) : Switch n β where
  arb := s.arb.edge switchArbiter (s.req offers) (s.ack last offers)
  reg := s.reg.edge (s.intAxis offers) ready

/-- `m_axis.tdata` where `m_axis.tvalid` is high. -/
def mAxis : Option β := s.reg.mAxisReg

/-- The beat an edge takes, with its port. -/
def taken : Option (Fin n × β) :=
  if s.reg.sAxisTreadyReg then s.port.bind fun k => (offers k).map (k, ·) else none

end Switch

/-- The input pins at one clock edge. -/
structure SwitchIn (n : Nat) (β : Type) where
  rst : Bool
  offers : Fin n → Option β
  ready : Bool

namespace Switch

def clock (last : β → Bool) (s : Switch n β) (i : SwitchIn n β) : Switch n β :=
  if i.rst then reset n β else s.edge last i.offers i.ready

/-! ## 2. One edge -/

variable {last : β → Bool} {s : Switch n β} {offers : Fin n → Option β}

structure Wf (s : Switch n β) : Prop where
  arb : s.arb.OneHot
  reg : s.reg.Wf

theorem reset_wf : (reset n β).Wf := ⟨rfl, SkidRegs.reset_wf⟩

theorem edge_wf (h : s.Wf) (offers : Fin n → Option β) (ready : Bool) : (s.edge last offers ready).Wf :=
  ⟨Arbiter.edge_oneHot h.arb _ _, SkidRegs.edge_wf h.reg _ _⟩

/-- The only port has the grant. -/
theorem port_alone (hn : n = 1) (s : Switch n β) (k : Fin n) : s.port = some k := by
  subst hn
  rw [port, dif_pos rfl]
  exact congrArg some (Subsingleton.elim _ _)

theorem port_some (hn : n ≠ 1) (h : s.Wf) {k : Fin n} (hk : s.port = some k) :
    s.arb.grantValidReg = true ∧ s.arb.grantIndexReg.toNat = k.val ∧
      s.arb.grantReg = BitVec.twoPow n k.val := by
  unfold port at hk
  rw [dif_neg hn] at hk
  split at hk
  · split at hk
    · next hv =>
        have hone := h.arb
        rw [Arbiter.OneHot, if_pos hv] at hone
        obtain rfl := Option.some.inj hk
        exact ⟨hv, rfl, hone.2⟩
    · cases hk
  · cases hk

theorem port_none (hn : n ≠ 1) (h : s.Wf) (hk : s.port = none) :
    s.arb.grantValidReg = false ∧ s.arb.grantReg = 0 := by
  have hone := h.arb
  unfold Arbiter.OneHot at hone
  cases hv : s.arb.grantValidReg with
  | false =>
      rw [hv] at hone
      exact ⟨rfl, hone⟩
  | true =>
      rw [hv, if_pos rfl] at hone
      rw [port, dif_neg hn, dif_pos hone.1, hv] at hk
      cases hk

/-- The granted port has the grant alone. -/
theorem grant_bit (hn : n ≠ 1) (h : s.Wf) (m : Fin n) : s.arb.grantReg.getLsbD m.val = (s.port == some m) := by
  cases hp : s.port with
  | none =>
      rw [(port_none hn h hp).2]
      exact BitVec.getLsbD_zero
  | some k =>
      rw [(port_some hn h hp).2.2, BitVec.getLsbD_twoPow, decide_eq_true k.isLt, Bool.true_and]
      by_cases hk : k = m
      · rw [hk]
        simp
      · have hne : k.val ≠ m.val := fun e => hk (Fin.ext e)
        rw [decide_eq_false hne]
        simp [hk]

theorem req_bit (hn : n ≠ 1) (h : s.Wf) (m : Fin n) :
    (s.req offers).getLsbD m.val = ((offers m).isSome && !(s.port == some m)) := by
  rw [req, BitVec.getLsbD_ofFnLE, dif_pos m.isLt, grant_bit hn h]

theorem ack_bit (hn : n ≠ 1) (h : s.Wf) {k : Fin n} (hk : s.port = some k) :
    (s.ack last offers).getLsbD k.val = ((s.taken offers).any fun x => last x.2) := by
  rw [ack, BitVec.getLsbD_ofFnLE, dif_pos k.isLt, grant_bit hn h, hk, intAxis, taken, hk]
  cases s.reg.sAxisTreadyReg <;> cases hx : offers k <;> simp [hx]

/-- A grant is held but for the edge at which the last beat of a frame is taken. -/
theorem held_iff (hn : n ≠ 1) (h : s.Wf) :
    s.arb.held switchArbiter (s.req offers) (s.ack last offers) =
      (s.port.isSome && !(s.taken offers).any fun x => last x.2) := by
  rw [Arbiter.held_iff ⟨rfl, rfl⟩ h.arb]
  cases hp : s.port with
  | none =>
      rw [(port_none hn h hp).1]
      rfl
  | some k =>
      obtain ⟨hv, hindex, -⟩ := port_some hn h hp
      rw [hv, hindex, ack_bit hn h hp]
      rfl

/-- The ports that may be granted next: those that offer, the granted one apart. -/
def Asks (s : Switch n β) (offers : Fin n → Option β) (m : Fin n) : Prop :=
  (offers m).isSome = true ∧ s.port ≠ some m

theorem req_iff (hn : n ≠ 1) (h : s.Wf) (m : Fin n) : (s.req offers).getLsbD m.val = true ↔ s.Asks offers m := by
  rw [req_bit hn h, Bool.and_eq_true, Bool.not_eq_true', beq_eq_false_iff_ne]
  exact Iff.rfl

/-- **A grant is kept** but for the edge at which the last beat of a frame is taken. -/
theorem port_kept (h : s.Wf) {k : Fin n} (hk : s.port = some k)
    (hend : ((s.taken offers).any fun x => last x.2) = false) (ready : Bool) :
    (s.edge last offers ready).port = some k := by
  by_cases hn : n = 1
  · exact port_alone hn _ k
  have hheld : s.arb.held switchArbiter (s.req offers) (s.ack last offers) = true := by
    rw [held_iff hn h, hk, hend]
    rfl
  have hedge : (s.edge last offers ready).arb = s.arb := by
    show s.arb.edge switchArbiter _ _ = s.arb
    rw [Arbiter.edge, hheld, if_pos rfl]
  rw [port, hedge]
  exact hk

/-- **A free grant goes to the lowest port that asks.** -/
theorem port_next (h : s.Wf) (hfree : s.port = none ∨ ((s.taken offers).any fun x => last x.2) = true)
    (ready : Bool) {k : Fin n} (hk : s.Asks offers k) :
    ∃ m, (s.edge last offers ready).port = some m ∧ s.Asks offers m ∧ m ≤ k := by
  have hn : n ≠ 1 := fun hn => hk.2 (port_alone hn s k)
  have hheld : s.arb.held switchArbiter (s.req offers) (s.ack last offers) = false := by
    rw [held_iff hn h]
    rcases hfree with hp | hend
    · rw [hp]
      rfl
    · rw [hend]
      exact Bool.and_false _
  have hvalid : pencValid (s.req offers) = true :=
    (pencValid_iff _).mpr ⟨k.val, (req_iff hn h k).mpr hk⟩
  have hfinds := penc_finds true (s.req offers)
  rw [if_pos hvalid] at hfinds
  have hlt := BitVec.lt_of_getLsbD hfinds.1.1
  have hedge : (s.edge last offers ready).arb = Arbiter.grantTo switchArbiter (s.req offers) s.arb.maskReg :=
    Arbiter.edge_fixed rfl hheld hvalid
  refine ⟨⟨_, hlt⟩, ?_, (req_iff hn h ⟨_, hlt⟩).mp hfinds.1.1, ?_⟩
  · rw [port, dif_neg hn, hedge]
    exact dif_pos hlt
  · refine Nat.le_of_not_lt fun hgt => ?_
    have hnot := hfinds.1.2 k.val hgt
    rw [(req_iff hn h k).mpr hk] at hnot
    cases hnot

/-- What is taken is offered by the granted port, and goes to the output register. -/
theorem taken_some (h : s.taken offers = some x) :
    s.port = some x.1 ∧ offers x.1 = some x.2 := by
  unfold taken at h
  split at h
  · cases hp : s.port with
    | none => rw [hp] at h; cases h
    | some k =>
        rw [hp] at h
        obtain ⟨b, hb, rfl⟩ := Option.map_eq_some_iff.mp h
        exact ⟨rfl, hb⟩
  · cases h

theorem taken_snd (s : Switch n β) (offers : Fin n → Option β) :
    (s.taken offers).map Prod.snd = if s.reg.sAxisTreadyReg then s.intAxis offers else none := by
  unfold taken intAxis
  split
  · cases s.port with
    | none => rfl
    | some k =>
        rw [Option.bind_some, Option.bind_some, Option.map_map]
        cases offers k <;> rfl
  · rfl

end Switch

/-! ## 3. Runs -/

/-- The switch with what crossed its ports since the last reset, the beats taken each with its port. -/
structure SwitchTally (n : Nat) (β : Type) where
  state : Switch n β
  taken : List (Fin n × β)
  sent : List β

namespace SwitchTally

def init (n : Nat) (β : Type) : SwitchTally n β := ⟨.reset n β, [], []⟩

def clock (last : β → Bool) (t : SwitchTally n β) (i : SwitchIn n β) : SwitchTally n β :=
  if i.rst then init n β
  else
    { state := t.state.edge last i.offers i.ready
      taken := t.taken ++ (t.state.taken i.offers).toList
      sent := t.sent ++ (if i.ready then t.state.mAxis else none).toList }

/-- What was taken was sent or is held, in whole frames; an open frame has the grant. -/
structure Kept (last : β → Bool) (t : SwitchTally n β) : Prop where
  wf : t.state.Wf
  items : t.taken.map Prod.snd = t.sent ++ t.state.reg.items
  frames : ∃ o, Frames last t.taken o ∧ ∀ k, o = some k → t.state.port = some k

variable {last : β → Bool} {t : SwitchTally n β}

theorem kept_init : (init n β).Kept last := ⟨Switch.reset_wf, rfl, none, .nil, fun _ h => by cases h⟩

/-- **One edge.** -/
theorem kept_edge (h : t.Kept last) (offers : Fin n → Option β) (ready : Bool) :
    (t.clock last ⟨false, offers, ready⟩).Kept last := by
  refine ⟨Switch.edge_wf h.wf offers ready, ?_, ?_⟩
  · have hreg := SkidRegs.edge_items h.wf.reg (t.state.intAxis offers) ready
    show (t.taken ++ (t.state.taken offers).toList).map Prod.snd = _
    rw [List.map_append, ← Option.toList_map, Switch.taken_snd, h.items, List.append_assoc, ← hreg,
      ← List.append_assoc]
    rfl
  · obtain ⟨o, hframes, hgrant⟩ := h.frames
    show ∃ o, Frames last (t.taken ++ (t.state.taken offers).toList) o ∧ _
    cases htaken : t.state.taken offers with
    | none =>
        rw [Option.toList_none, List.append_nil]
        refine ⟨o, hframes, fun k hk => ?_⟩
        exact Switch.port_kept h.wf (hgrant k hk) (by rw [htaken]; rfl) ready
    | some x =>
        obtain ⟨hport, -⟩ := Switch.taken_some htaken
        refine ⟨_, hframes.carry (fun j hj => ?_) x.2, fun k hk => ?_⟩
        · exact Option.some.inj ((hgrant j hj).symm.trans hport)
        · cases hx : last x.2 with
          | true => rw [hx] at hk; cases hk
          | false =>
              rw [hx] at hk
              obtain rfl := Option.some.inj hk
              exact Switch.port_kept h.wf hport (by rw [htaken]; exact hx) ready

theorem kept_clock (h : t.Kept last) (i : SwitchIn n β) : (t.clock last i).Kept last := by
  obtain ⟨rst, offers, ready⟩ := i
  cases rst with
  | true => exact kept_init
  | false => exact kept_edge h offers ready

theorem kept_run (is : List (SwitchIn n β)) : (run (clock last) (init n β) is).Kept last :=
  run_all (P := Kept last) (fun _ i h => kept_clock h i) kept_init is

end SwitchTally

/-- **In every run**, resets at any edges included: the beats the switch sent since the last reset are,
    in order, those it took from its ports but for the at most two it holds, and they are made of whole
    frames, each from one port, with at most one frame open at the end, whose port has the grant. -/
theorem switch_run (last : β → Bool) (is : List (SwitchIn n β)) :
    let t := run (SwitchTally.clock last) (SwitchTally.init n β) is
    t.taken.map Prod.snd = t.sent ++ t.state.reg.items ∧ t.state.reg.items.length ≤ 2 ∧
      ∃ (o : Option (Fin n)) (fs : List (Fin n × List β)) (rest : List β),
        (∀ f ∈ fs, Frames.Whole last f) ∧ (∀ x ∈ rest, last x = false) ∧
          Frames.Splits t.taken fs rest o ∧ ∀ k, o = some k → t.state.port = some k := by
  intro t
  have h : t.Kept last := SwitchTally.kept_run is
  obtain ⟨o, hframes, hgrant⟩ := h.frames
  obtain ⟨fs, rest, hfs, hrest, hsplit⟩ := hframes.whole
  refine ⟨h.items, ?_, o, fs, rest, hfs, hrest, hsplit, hgrant⟩
  have hbound := skid_bound (f := id) t.state.reg
  rwa [List.length_map] at hbound

/-! ## 4. Waiting -/

namespace Switch

variable {last : β → Bool} {s : Switch n β} {offers : Fin n → Option β}

theorem clock_wf (h : s.Wf) (i : SwitchIn n β) : (s.clock last i).Wf := by
  unfold clock
  split
  · exact reset_wf
  · exact edge_wf h i.offers i.ready

theorem run_wf (is : List (SwitchIn n β)) : (run (clock last) (reset n β) is).Wf :=
  run_all (P := Wf) (fun _ i h => clock_wf h i) reset_wf is

theorem taken_quiet {k : Fin n} (hk : s.port = some k) (hquiet : offers k = none) : s.taken offers = none := by
  rw [taken, hk, Option.bind_some, hquiet]
  simp

theorem sTready_other {k m : Fin n} (hk : s.port = some k) (hne : m ≠ k) : s.sTready m = false := by
  rw [sTready, hk]
  simp [Ne.symm hne]

/-- **Behind two ports that offer** no grant is given. -/
theorem port_behind (h : s.Wf) {p q m : Fin n} (hpq : p < q) (hqm : q < m) (hport : s.port ≠ some m)
    (hp : (offers p).isSome = true) (hq : (offers q).isSome = true) (ready : Bool) :
    (s.edge last offers ready).port ≠ some m := by
  intro hm
  -- one of the two ports is not the granted one, and so asks
  obtain ⟨j, hj, hasks⟩ : ∃ j, j < m ∧ s.Asks offers j := by
    by_cases hgrant : s.port = some p
    · refine ⟨q, hqm, hq, fun e => ?_⟩
      exact absurd (Option.some.inj (hgrant.symm.trans e)) (ne_of_lt hpq)
    · exact ⟨p, lt_trans hpq hqm, hp, hgrant⟩
  have hnext (hfree : s.port = none ∨ ((s.taken offers).any fun x => last x.2) = true) :=
    port_next h hfree ready hasks
  cases hs : s.port with
  | none =>
      obtain ⟨k, hk, -, hle⟩ := hnext (Or.inl hs)
      obtain rfl := Option.some.inj (hk.symm.trans hm)
      exact absurd hj (not_lt_of_ge hle)
  | some k =>
      cases hend : (s.taken offers).any fun x => last x.2 with
      | false =>
          have hkept := port_kept h hs hend ready
          obtain rfl := Option.some.inj (hkept.symm.trans hm)
          exact hport hs
      | true =>
          obtain ⟨k, hk, -, hle⟩ := hnext (Or.inr hend)
          obtain rfl := Option.some.inj (hk.symm.trans hm)
          exact absurd hj (not_lt_of_ge hle)

/-- A frame ends at this edge. -/
def ends (last : β → Bool) (s : Switch n β) (i : SwitchIn n β) : Bool :=
  (s.taken i.offers).any fun x => last x.2

/-- Port `m` offers a beat, and it is not taken. -/
def Waits (m : Fin n) (s : Switch n β) (i : SwitchIn n β) : Prop :=
  i.rst = false ∧ (i.offers m).isSome = true ∧ (s.taken i.offers).all (fun x => x.1 ≠ m) = true

instance (m : Fin n) (s : Switch n β) (i : SwitchIn n β) : Decidable (s.Waits m i) :=
  inferInstanceAs (Decidable (_ ∧ _ ∧ _))

/-- The frames that may end before port `m`, which is 0 or 1, has its grant. -/
def ahead (m : Fin n) (s : Switch n β) : Nat :=
  s.port.elim (m.val + 1) fun k => if k = m then 0 else if k < m then 1 else m.val + 1

theorem ahead_le (m : Fin n) (s : Switch n β) : s.ahead m ≤ m.val + 1 := by
  unfold ahead
  cases s.port with
  | none => exact Nat.le_refl _
  | some k =>
      show (if k = m then 0 else if k < m then 1 else m.val + 1) ≤ _
      split
      · omega
      · split <;> omega

/-- **One edge of the wait**: a frame that ends brings the port closer to its grant. -/
theorem ahead_edge {m : Fin n} (hm : m.val ≤ 1) (h : s.Wf) {i : SwitchIn n β} (hw : s.Waits m i) :
    (if s.ends last i then 1 else 0) + (s.clock last i).ahead m ≤ s.ahead m := by
  obtain ⟨hrst, hoffer, hother⟩ := hw
  rw [clock, hrst, if_neg Bool.false_ne_true]
  cases hend : s.ends last i with
  | false =>
      rw [if_neg Bool.false_ne_true, Nat.zero_add]
      cases hport : s.port with
      | none =>
          have hnone : s.ahead m = m.val + 1 := by rw [ahead, hport, Option.elim_none]
          rw [hnone]
          exact ahead_le m _
      | some k =>
          have hkept := port_kept h hport hend i.ready
          rw [ahead, ahead, hkept, hport]
  | true =>
      rw [if_pos rfl]
      obtain ⟨x, htaken, -⟩ := Option.any_eq_true .. |>.mp hend
      obtain ⟨hport, -⟩ := taken_some htaken
      have hne : x.1 ≠ m := by
        rw [htaken] at hother
        simpa using hother
      have hasks : s.Asks i.offers m := ⟨hoffer, by rw [hport]; simpa using hne⟩
      obtain ⟨j, hj, ⟨-, hkj⟩, hle⟩ := port_next h (Or.inr hend) i.ready hasks
      rw [hport] at hkj
      rw [ahead, ahead, hj, hport, Option.elim_some, Option.elim_some, if_neg hne]
      by_cases hjm : j = m
      · rw [if_pos hjm]
        split <;> omega
      · -- port 0 is granted before port 1, which is not the port whose frame has ended
        have hlt : j < m := lt_of_le_of_ne hle hjm
        have hxj : x.1 ≠ j := fun e => hkj (congrArg some e)
        have hgt : ¬ x.1 < m := by
          intro hx
          refine hxj (Fin.ext ?_)
          have hx' : x.1.val < m.val := hx
          have hlt' : j.val < m.val := hlt
          omega
        have hm' : m.val = 1 := by
          have hlt' : j.val < m.val := hlt
          omega
        rw [if_neg hjm, if_pos hlt, if_neg hgt, hm']

end Switch

/-- **A frame keeps the switch.** Once a beat that does not end its frame was taken from port `k`, no beat
    of another port is taken, and none of those ports is ready, as long as port `k` has no beat. -/
theorem switch_blocked (last : β → Bool) (is js : List (SwitchIn n β)) {k : Fin n} {x : β}
    (hopen : (run (SwitchTally.clock last) (SwitchTally.init n β) is).taken.getLast? = some (k, x))
    (hx : last x = false) (hquiet : ∀ j ∈ js, j.rst = false ∧ j.offers k = none) :
    let t := run (SwitchTally.clock last) (SwitchTally.init n β) is
    let t' := run (SwitchTally.clock last) t js
    t'.taken = t.taken ∧ ∀ m, m ≠ k → t'.state.sTready m = false := by
  intro t t'
  have h : t.Kept last := SwitchTally.kept_run is
  obtain ⟨o, hframes, hgrant⟩ := h.frames
  have hport : t.state.port = some k := by
    refine hgrant k ?_
    rw [hframes.open_of_last hopen, hx]
    rfl
  have hrun : t'.state.Wf ∧ t'.state.port = some k ∧ t'.taken = t.taken := by
    refine run_meets (P := fun u : SwitchTally n β => u.state.Wf ∧ u.state.port = some k ∧ u.taken = t.taken)
      (fun u i hu (hi : i.rst = false ∧ i.offers k = none) => ?_) ⟨h.wf, hport, rfl⟩ js (Meets.of_mem hquiet)
    obtain ⟨hwf, hk, htaken⟩ := hu
    obtain ⟨hrst, hnone⟩ := hi
    have hno := Switch.taken_quiet hk hnone
    rw [SwitchTally.clock, hrst, if_neg Bool.false_ne_true]
    refine ⟨Switch.edge_wf hwf i.offers i.ready, Switch.port_kept hwf hk (by rw [hno]; rfl) i.ready, ?_⟩
    show u.taken ++ (u.state.taken i.offers).toList = t.taken
    rw [hno, Option.toList_none, List.append_nil]
    exact htaken
  exact ⟨hrun.2.2, fun m hm => Switch.sTready_other hrun.2.1 hm⟩

/-- Port `k` offers a beat with the mark `x`, the sink is ready. -/
def oneOffers (k : Fin 3) (x : Bool) : SwitchIn 3 Bool := ⟨false, fun m => if m = k then some x else none, true⟩

/-- Port 0 falls silent inside a frame, port 2 offers in vain. -/
theorem switch_blocked_port_two :
    let t := run (SwitchTally.clock id) (SwitchTally.init 3 Bool) (List.replicate 2 (oneOffers 0 false))
    let t' := run (SwitchTally.clock id) t (List.replicate 9 (oneOffers 2 true))
    t'.taken = t.taken ∧ ∀ m, m ≠ 0 → t'.state.sTready m = false :=
  switch_blocked id (List.replicate 2 (oneOffers 0 false)) (List.replicate 9 (oneOffers 2 true)) (k := 0)
    (x := false) (by decide +kernel) rfl (by decide)

/-- **Ports 0 and 1 are served**: from any state, resets before it included, while port 0 offers a beat
    that is not taken at most one frame ends; while port 1 does, at most two. -/
theorem switch_waits (last : β → Bool) (is js : List (SwitchIn n β)) {m : Fin n} (hm : m.val ≤ 1)
    (hw : Meets (Switch.clock last) (Switch.Waits m) (run (Switch.clock last) (.reset n β) is) js) :
    count (Switch.clock last) (Switch.ends last) (run (Switch.clock last) (.reset n β) is) js ≤ m.val + 1 := by
  have hrank : count (Switch.clock last) (Switch.ends last) _ js + Switch.ahead m _ ≤ Switch.ahead m _ :=
    count_le_rank (P := Switch.Wf) (fun _ i h _ => Switch.clock_wf h i) (fun _ _ h hw => Switch.ahead_edge hm h hw) (Switch.run_wf is) js hw
  exact Nat.le_trans (Nat.le_of_add_right_le hrank) (Switch.ahead_le m _)

/-- Port 1 waits for a frame of port 2 and, after it, for one of port 0. -/
theorem switch_waits_port_one :
    count (Switch.clock id) (Switch.ends id)
      (run (Switch.clock id) (.reset 3 Bool) (List.replicate 2 (oneOffers 2 false)))
      (List.replicate 2 ⟨false, fun _ => some true, true⟩) ≤ 2 :=
  switch_waits id (List.replicate 2 (oneOffers 2 false)) (List.replicate 2 ⟨false, fun _ => some true, true⟩)
    (m := 1) (by decide) (by decide +kernel)

/-- **A port behind two that always offer is never granted**: in every run, whatever the frames of the two
    and whatever else is offered, from any state in which it does not have the grant. -/
theorem switch_starves (last : β → Bool) (is js : List (SwitchIn n β)) {p q m : Fin n} (hpq : p < q)
    (hqm : q < m) (hport : (run (Switch.clock last) (.reset n β) is).port ≠ some m)
    (hbusy : ∀ j ∈ js, j.rst = false ∧ (j.offers p).isSome = true ∧ (j.offers q).isSome = true) :
    (run (Switch.clock last) (.reset n β) (is ++ js)).port ≠ some m ∧
      (run (Switch.clock last) (.reset n β) (is ++ js)).sTready m = false := by
  have hrun : (run (Switch.clock last) (run (Switch.clock last) (.reset n β) is) js).Wf ∧
      (run (Switch.clock last) (run (Switch.clock last) (.reset n β) is) js).port ≠ some m := by
    refine run_meets (P := fun s : Switch n β => s.Wf ∧ s.port ≠ some m)
      (fun s i hs (hi : i.rst = false ∧ (i.offers p).isSome = true ∧ (i.offers q).isSome = true) => ?_) ⟨Switch.run_wf is, hport⟩ js (Meets.of_mem hbusy)
    refine ⟨Switch.clock_wf hs.1 i, ?_⟩
    rw [Switch.clock, hi.1, if_neg Bool.false_ne_true]
    exact Switch.port_behind hs.1 hpq hqm hs.2 hi.2.1 hi.2.2 i.ready
  rw [run_append, Switch.sTready]
  exact ⟨hrun.2, by simp [hrun.2]⟩

theorem switch_starves_port_two :
    let s := run (Switch.clock id) (.reset 3 Bool) ([] ++ List.replicate 20 ⟨false, fun _ => some true, true⟩)
    s.port ≠ some 2 ∧ s.sTready 2 = false :=
  switch_starves id [] (List.replicate 20 ⟨false, fun _ => some true, true⟩) (p := 0) (q := 1) (m := 2)
    (by decide) (by decide) (by decide) (by decide)

end Frac.Axis
