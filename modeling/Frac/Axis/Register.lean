/-
  File:      Frac/Axis/Register.lean
  Subject:   The AXI-Stream register (axis_register.v, taxi_axis_register.sv) in its three types,
             and the pipeline register (axis_pipeline_register.v), any number of them in series.

  * `skidBuffer`, `simpleBuffer` -- the types that register, as elastic parts;
  * `axisRegister`, `axisPipelineRegister` -- the modules, by their parameters;
  * **`axisPipelineRegister_run`** -- in every run, resets included, what a pipeline of any length
    and type accepted since the last reset is what it sent and what it holds, in order; what it
    shows stays until it is taken;
  * **`axisPipelineRegister_drains`** -- a pipeline of skid buffers is empty after two edges a stage
    at which the sink is ready and nothing is offered, whatever state a run left it in;
  * **`axisPipelineRegister_delay`** -- with the sink tied to ready it is a delay line.
-/
import Frac.Lib.Elastic
import Frac.Lib.Fifo

namespace Frac.Axis

/-! ## 1. Payload -/

/-- The parameters of the interfaces. -/
structure AxisConfig where
  dataWidth : Nat
  keepWidth : Nat
  idWidth : Nat
  destWidth : Nat
  userWidth : Nat
  keepEnable : Bool
  lastEnable : Bool
  idEnable : Bool
  destEnable : Bool
  userEnable : Bool

/-- The lines beside the handshake. -/
structure Payload (c : AxisConfig) where
  tdata : BitVec c.dataWidth
  tkeep : BitVec c.keepWidth
  tlast : Bool
  tid : BitVec c.idWidth
  tdest : BitVec c.destWidth
  tuser : BitVec c.userWidth
  deriving DecidableEq

/-- The output assigns: a line that is not propagated is a constant. -/
def Payload.propagated {c : AxisConfig} (p : Payload c) : Payload c where
  tdata := p.tdata
  tkeep := if c.keepEnable then p.tkeep else BitVec.allOnes c.keepWidth
  tlast := if c.lastEnable then p.tlast else true
  tid := if c.idEnable then p.tid else 0
  tdest := if c.destEnable then p.tdest else 0
  tuser := if c.userEnable then p.tuser else 0

@[simp] theorem propagated_twice {c : AxisConfig} (p : Payload c) : p.propagated.propagated = p.propagated := by
  unfold Payload.propagated
  simp only [Payload.mk.injEq, true_and]
  refine ⟨?_, ?_, ?_, ?_, ?_⟩ <;> split <;> rfl

theorem propagated_iterate {c : AxisConfig} {n : Nat} (hn : 0 < n) :
    (Payload.propagated (c := c))^[n] = Payload.propagated := by
  obtain ⟨n, rfl⟩ := Nat.exists_eq_add_of_lt hn
  funext p
  induction n with
  | zero => rfl
  | succ n ih =>
      rw [Nat.zero_add, Function.iterate_succ_apply']
      rw [Nat.zero_add] at ih
      rw [ih (Nat.succ_pos n), propagated_twice]

/-! ## 2. The three types -/

variable {α β : Type}

/-- `REG_TYPE > 1`: the registers of the skid buffer. A data register is `none` where its valid bit is
    low. -/
structure SkidRegs (α : Type) where
  sAxisTreadyReg : Bool
  mAxisReg : Option α
  tempMAxisReg : Option α

namespace SkidRegs

def reset : SkidRegs α := ⟨false, none, none⟩

/-- `s_axis_tready_early`. -/
def sAxisTreadyEarly (s : SkidRegs α) (x : Option α) (mAxisTready : Bool) : Bool :=
  mAxisTready || (s.tempMAxisReg.isNone && (s.mAxisReg.isNone || x.isNone))

def edge (s : SkidRegs α) (x : Option α) (mAxisTready : Bool) : SkidRegs α :=
  if s.sAxisTreadyReg then
    -- input is ready
    if mAxisTready || s.mAxisReg.isNone then ⟨s.sAxisTreadyEarly x mAxisTready, x, s.tempMAxisReg⟩
    else ⟨s.sAxisTreadyEarly x mAxisTready, s.mAxisReg, x⟩
  else if mAxisTready then ⟨s.sAxisTreadyEarly x mAxisTready, s.tempMAxisReg, none⟩
  else ⟨s.sAxisTreadyEarly x mAxisTready, s.mAxisReg, s.tempMAxisReg⟩

/-- Ready only with the second register free, which fills after the first. -/
def Wf (s : SkidRegs α) : Prop :=
  (s.sAxisTreadyReg = true → s.tempMAxisReg = none) ∧ (s.mAxisReg = none → s.tempMAxisReg = none)

theorem reset_wf : (reset : SkidRegs α).Wf := ⟨fun _ => rfl, fun _ => rfl⟩

def items (s : SkidRegs α) : List α := s.mAxisReg.toList ++ s.tempMAxisReg.toList

/-- What an edge does, by what the registers hold. -/
theorem edge_wf {s : SkidRegs α} (h : s.Wf) (x : Option α) (r : Bool) : (s.edge x r).Wf := by
  obtain ⟨ready, m, temp⟩ := s
  obtain ⟨hready, hfull⟩ := h
  cases ready <;> cases r <;> cases m <;> cases temp <;> cases x <;>
    simp_all [edge, sAxisTreadyEarly, Wf]

theorem edge_items {s : SkidRegs α} (h : s.Wf) (x : Option α) (r : Bool) :
    (if r then s.mAxisReg else none).toList ++ (s.edge x r).items =
      s.items ++ (if s.sAxisTreadyReg then x else none).toList := by
  obtain ⟨ready, m, temp⟩ := s
  obtain ⟨hready, hfull⟩ := h
  cases ready <;> cases r <;> cases m <;> cases temp <;>
    simp_all [edge, items]

theorem edge_stays {s : SkidRegs α} {y : α} (h : s.mAxisReg = some y) (x : Option α) :
    (s.edge x false).mAxisReg = some y := by
  unfold edge
  rw [h]
  cases s.sAxisTreadyReg <;> rfl

end SkidRegs

/-- `REG_TYPE == 1`: the simple register. -/
structure SimpleRegs (α : Type) where
  sAxisTreadyReg : Bool
  mAxisReg : Option α

namespace SimpleRegs

def reset : SimpleRegs α := ⟨false, none⟩

/-- `m_axis_tvalid_next` with the data. -/
def mAxisNext (s : SimpleRegs α) (x : Option α) (mAxisTready : Bool) : Option α :=
  if s.sAxisTreadyReg then x else if mAxisTready then none else s.mAxisReg

def edge (s : SimpleRegs α) (x : Option α) (mAxisTready : Bool) : SimpleRegs α :=
  ⟨(s.mAxisNext x mAxisTready).isNone, s.mAxisNext x mAxisTready⟩

/-- Ready only while empty. -/
def Wf (s : SimpleRegs α) : Prop := s.sAxisTreadyReg = true → s.mAxisReg = none

theorem reset_wf : (reset : SimpleRegs α).Wf := fun _ => rfl

theorem edge_wf (s : SimpleRegs α) (x : Option α) (r : Bool) : (s.edge x r).Wf :=
  fun h => Option.isNone_iff_eq_none.mp h

theorem edge_items {s : SimpleRegs α} (h : s.Wf) (x : Option α) (r : Bool) :
    (if r then s.mAxisReg else none).toList ++ (s.edge x r).mAxisReg.toList =
      s.mAxisReg.toList ++ (if s.sAxisTreadyReg then x else none).toList := by
  obtain ⟨ready, m⟩ := s
  cases ready with
  | true =>
      have hm : m = none := h rfl
      cases r <;> simp [hm, edge, mAxisNext]
  | false => cases r <;> simp [edge, mAxisNext]

theorem edge_stays {s : SimpleRegs α} {y : α} (h : s.Wf) (hy : s.mAxisReg = some y) (x : Option α) :
    (s.edge x false).mAxisReg = some y := by
  have hready : s.sAxisTreadyReg = false := by
    refine Bool.eq_false_iff.mpr fun hr => ?_
    rw [h hr] at hy
    cases hy
  simp [edge, mAxisNext, hready, hy]

end SimpleRegs

section Parts

variable {f : α → β}

theorem skid_bound (s : SkidRegs α) : (s.items.map f).length ≤ 2 := by
  obtain ⟨_, m, temp⟩ := s
  cases m <;> cases temp <;> simp [SkidRegs.items]

theorem skid_items {s : SkidRegs α} (h : s.Wf) (x : Option α) (r : Bool) :
    (if r then s.mAxisReg.map f else none).toList ++ (s.edge x r).items.map f =
      s.items.map f ++ ((if s.sAxisTreadyReg then x else none).map f).toList := by
  have hitems := congrArg (List.map f) (SkidRegs.edge_items h x r)
  rw [List.map_append, List.map_append] at hitems
  rw [Option.toList_map, ← hitems]
  cases r with
  | false => rfl
  | true => rw [if_pos rfl, if_pos rfl, Option.toList_map]

theorem skid_stays {s : SkidRegs α} {y : β} (hy : s.mAxisReg.map f = some y) (x : Option α) :
    (s.edge x false).mAxisReg.map f = some y := by
  obtain ⟨a, ha, rfl⟩ := Option.map_eq_some_iff.mp hy
  rw [SkidRegs.edge_stays ha x]
  rfl

theorem simple_bound (s : SimpleRegs α) : (s.mAxisReg.toList.map f).length ≤ 1 := by
  obtain ⟨_, m⟩ := s
  cases m <;> simp

theorem simple_items {s : SimpleRegs α} (h : s.Wf) (x : Option α) (r : Bool) :
    (if r then s.mAxisReg.map f else none).toList ++ (s.edge x r).mAxisReg.toList.map f =
      s.mAxisReg.toList.map f ++ ((if s.sAxisTreadyReg then x else none).map f).toList := by
  have hitems := congrArg (List.map f) (SimpleRegs.edge_items h x r)
  rw [List.map_append, List.map_append] at hitems
  rw [Option.toList_map, ← hitems]
  cases r with
  | false => rfl
  | true => rw [if_pos rfl, if_pos rfl, Option.toList_map]

theorem simple_stays {s : SimpleRegs α} {y : β} (h : s.Wf) (hy : s.mAxisReg.map f = some y) (x : Option α) :
    (s.edge x false).mAxisReg.map f = some y := by
  obtain ⟨a, ha, rfl⟩ := Option.map_eq_some_iff.mp hy
  rw [SimpleRegs.edge_stays h ha x]
  rfl

end Parts

/-- The skid buffer as a part; the lines are propagated at its output. -/
def skidBuffer (f : α → β) : Elastic f where
  State := SkidRegs α
  init := .reset
  out s _ := s.mAxisReg.map f
  tready s _ := s.sAxisTreadyReg
  edge := .edge
  clear _ _ _ := .reset
  inv := SkidRegs.Wf
  held s := s.items.map f
  cap := 2
  inv_init := SkidRegs.reset_wf
  inv_edge _ x r h := SkidRegs.edge_wf h x r
  inv_clear _ _ _ _ := SkidRegs.reset_wf
  held_init := rfl
  held_clear _ _ _ _ := rfl
  bound s _ := skid_bound s
  items _ x r h := skid_items h x r
  stays _ x _ _ _ hy _ := skid_stays hy x

/-- The simple register as a part. -/
def simpleBuffer (f : α → β) : Elastic f where
  State := SimpleRegs α
  init := .reset
  out s _ := s.mAxisReg.map f
  tready s _ := s.sAxisTreadyReg
  edge := .edge
  clear _ _ _ := .reset
  inv := SimpleRegs.Wf
  held s := s.mAxisReg.toList.map f
  cap := 1
  inv_init := SimpleRegs.reset_wf
  inv_edge s x r _ := SimpleRegs.edge_wf s x r
  inv_clear _ _ _ _ := SimpleRegs.reset_wf
  held_init := rfl
  held_clear _ _ _ _ := rfl
  bound s _ := simple_bound s
  items _ x r h := simple_items h x r
  stays _ x _ _ h hy _ := simple_stays h hy x

/-! ## 3. The modules -/

/-- `axis_register`, by `REG_TYPE`: type 0 is wires. -/
def axisRegister (c : AxisConfig) : Nat → Elastic (Payload.propagated (c := c))
  | 0 => .through _
  | 1 => simpleBuffer _
  | _ + 2 => skidBuffer _

/-- `axis_pipeline_register`: `pipe_reg[0]` first. -/
def axisPipelineRegister (c : AxisConfig) (regType length : Nat) :
    Elastic ((Payload.propagated (c := c))^[length]) :=
  .chain (axisRegister c regType) length

theorem axisRegister_cap (c : AxisConfig) (regType : Nat) : (axisRegister c regType).cap = min regType 2 := by
  match regType with
  | 0 => rfl
  | 1 => rfl
  | n + 2 => exact (Nat.min_eq_right (Nat.le_add_left 2 n)).symm

/-- **In every run**, resets at any edges included, what a pipeline of any length and type accepted
    since the last reset is, in order and with its lines propagated, what it sent since then and what
    it holds; it holds at most what its registers can; and what it shows stays, unchanged, through all
    the edges at which the sink is not ready, the source keeping what it offers. -/
theorem axisPipelineRegister_run (c : AxisConfig) (regType length : Nat) (hlen : 0 < length)
    (is : List (Elastic.In (Payload c))) :
    let p := axisPipelineRegister c regType length
    let t := Clocked.run Elastic.Tally.clock (Elastic.Tally.init p) is
    t.accepted.map Payload.propagated = t.sent ++ p.held t.state ∧
      (p.held t.state).length ≤ length * min regType 2 ∧
      ∀ x y xs, p.out t.state x = some y → p.Patient t.state x xs →
        p.out (p.stall t.state x xs).1 (p.stall t.state x xs).2 = some y := by
  intro p t
  obtain ⟨⟨hinv, hbal⟩, hcap⟩ := Elastic.tally_run p is
  have hbound : p.cap = length * min regType 2 := by
    rw [← axisRegister_cap c regType]
    exact Elastic.chain_cap (axisRegister c regType) length
  rw [hbound] at hcap
  have hlines : t.accepted.map Payload.propagated = t.accepted.map (Payload.propagated^[length]) :=
    List.map_congr_left fun x _ => (congrFun (propagated_iterate hlen) x).symm
  exact ⟨hlines.trans hbal, hcap, fun x y xs hy hkeep => p.out_stall hinv hy xs hkeep⟩

/-- One byte with `LAST_ENABLE` and `USER_ENABLE`. -/
def byteConfig : AxisConfig := ⟨8, 1, 8, 8, 1, false, true, false, false, true⟩

/-- Five edges of one beat each at a sink that is not ready: two stages hold four of them. -/
theorem axisPipelineRegister_run_full :
    let p := axisPipelineRegister byteConfig 2 2
    let t := Clocked.run Elastic.Tally.clock (Elastic.Tally.init p)
      (List.replicate 6 ⟨false, some ⟨7, 0, true, 0, 0, 1⟩, false⟩)
    t.accepted.map Payload.propagated = t.sent ++ p.held t.state ∧ (p.held t.state).length ≤ 4 ∧
      t.accepted.length = 4 := by
  obtain ⟨hbal, hcap, -⟩ := axisPipelineRegister_run byteConfig 2 2 (by decide)
    (List.replicate 6 ⟨false, some ⟨7, 0, true, 0, 0, 1⟩, false⟩)
  exact ⟨hbal, hcap, by decide +kernel⟩

/-! ## 4. Skid buffers behind a sink that is ready -/

section Flow

variable {f : α → α} {n : Nat}

/-- A chain of skid buffers. -/
def skidChain (f : α → α) (n : Nat) : Elastic (f^[n]) := .chain (skidBuffer f) n

/-- The last `k` buffers are ready, with the second register free. -/
def Open (f : α → α) (k : Nat) : (n : Nat) → (skidChain f n).State → Prop
  | 0, _ => True
  | n + 1, s => (n < k → s.1.sAxisTreadyReg = true ∧ s.1.tempMAxisReg = none) ∧ Open f k n s.2

/-- The first `j` buffers are empty. -/
def Clear (f : α → α) : (n j : Nat) → (skidChain f n).State → Prop
  | 0, _, _ => True
  | _, 0, _ => True
  | n + 1, j + 1, s => (s.1.mAxisReg = none ∧ s.1.tempMAxisReg = none) ∧ Clear f n j s.2

theorem open_zero (s : (skidChain f n).State) : Open f 0 n s := by
  induction n with
  | zero => trivial
  | succ n ih => exact ⟨fun h => absurd h (Nat.not_lt_zero n), ih s.2⟩

/-- A chain with all its buffers open stays counted as open. -/
theorem open_all {k : Nat} (hk : n ≤ k) {s : (skidChain f n).State} (h : Open f k n s) (k' : Nat) :
    Open f k' n s := by
  induction n with
  | zero => trivial
  | succ n ih => exact ⟨fun _ => h.1 hk, ih (Nat.le_of_lt hk) h.2⟩

/-- An open chain is ready when its sink is. -/
theorem open_tready {k : Nat} (hk : n ≤ k) {s : (skidChain f n).State} (h : Open f k n s) :
    (skidChain f n).tready s true = true := by
  cases n with
  | zero => rfl
  | succ n => exact (h.1 hk).1

/-- A buffer whose sink is ready is ready after the edge, with the second register free. -/
theorem skid_edge_ready {s : SkidRegs α} (h : s.Wf) (x : Option α) :
    (s.edge x true).sAxisTreadyReg = true ∧ (s.edge x true).tempMAxisReg = none := by
  unfold SkidRegs.edge SkidRegs.sAxisTreadyEarly
  cases hready : s.sAxisTreadyReg with
  | false => exact ⟨rfl, rfl⟩
  | true => exact ⟨rfl, h.1 hready⟩

/-- **One edge with the sink ready** opens one buffer more, from the last on. -/
theorem open_edge {k : Nat} {s : (skidChain f n).State} (hinv : (skidChain f n).inv s) (h : Open f k n s)
    (x : Option α) : Open f (k + 1) n ((skidChain f n).edge s x true) := by
  induction n generalizing x with
  | zero => trivial
  | succ n ih =>
      refine ⟨fun hlt => ?_, ih hinv.2 h.2 _⟩
      have hsink : (skidChain f n).tready s.2 true = true := open_tready (Nat.lt_succ_iff.mp hlt) h.2
      have hstage : ((skidChain f (n + 1)).edge s x true).1 = SkidRegs.edge s.1 x true := by
        show SkidRegs.edge s.1 x ((skidChain f n).tready s.2 true) = _
        rw [hsink]
      rw [hstage]
      exact skid_edge_ready hinv.1 x

/-- An open buffer takes what is offered. -/
theorem skid_edge_open {s : SkidRegs α} (hready : s.sAxisTreadyReg = true) (htemp : s.tempMAxisReg = none)
    (x : Option α) : s.edge x true = ⟨true, x, none⟩ := by
  unfold SkidRegs.edge SkidRegs.sAxisTreadyEarly
  rw [hready, htemp]
  rfl

/-- **One edge of an open chain**: every buffer takes what the one before it shows. -/
theorem chain_edge_open {k : Nat} (hk : n < k) {s : (skidChain f (n + 1)).State} (h : Open f k (n + 1) s)
    (x : Option α) :
    (skidChain f (n + 1)).edge s x true =
      (⟨true, x, none⟩, (skidChain f n).edge s.2 (s.1.mAxisReg.map f) true) := by
  have hsink : (skidChain f n).tready s.2 true = true := open_tready (Nat.le_of_lt hk) h.2
  have hfirst := h.1 hk
  show (SkidRegs.edge s.1 x ((skidChain f n).tready s.2 true), _) = _
  rw [hsink, skid_edge_open hfirst.1 hfirst.2]
  rfl

theorem clear_zero (s : (skidChain f n).State) : Clear f n 0 s := by
  cases n <;> trivial

/-- An edge of an open chain at which nothing is offered empties one buffer more. -/
theorem clear_edge {k j : Nat} (hk : n ≤ k) {s : (skidChain f n).State} (ho : Open f k n s)
    (hc : Clear f n j s) : Clear f n (j + 1) ((skidChain f n).edge s none true) := by
  induction n generalizing j with
  | zero => trivial
  | succ n ih =>
      rw [chain_edge_open hk ho none]
      cases j with
      | zero => exact ⟨⟨rfl, rfl⟩, clear_zero _⟩
      | succ j =>
          rw [hc.1.1]
          exact ⟨⟨rfl, rfl⟩, ih (Nat.le_of_lt hk) ho.2 hc.2⟩

theorem held_of_clear {j : Nat} (hj : n ≤ j) {s : (skidChain f n).State} (h : Clear f n j s) :
    (skidChain f n).held s = [] := by
  induction n generalizing j with
  | zero => rfl
  | succ n ih =>
      obtain ⟨j, rfl⟩ := Nat.exists_eq_add_of_le' hj
      have hrest := ih (Nat.le_add_left n j) h.2
      have hfirst : SkidRegs.items s.1 = [] := by
        unfold SkidRegs.items
        rw [h.1.1, h.1.2]
        rfl
      show (skidChain f n).held s.2 ++ ((SkidRegs.items s.1).map f).map (f^[n]) = []
      rw [hrest, hfirst]
      rfl

/-- What an edge without an offer does behind a ready sink, counted from any state. -/
theorem flow_run {t : Elastic.Tally (skidChain f n)} (h : t.Balanced) (m : Nat) :
    let t' := Clocked.run Elastic.Tally.clock t (List.replicate m ⟨false, none, true⟩)
    t'.Balanced ∧ Open f m n t'.state ∧ Clear f n (m - n) t'.state := by
  induction m with
  | zero => exact ⟨h, open_zero _, by rw [Nat.zero_sub]; exact clear_zero _⟩
  | succ m ih =>
      obtain ⟨hbal, hopen, hclear⟩ := ih
      rw [List.replicate_succ', Clocked.run_append, Clocked.run_cons, Clocked.run_nil]
      refine ⟨Elastic.Tally.balanced_clock hbal _, open_edge hbal.1 hopen none, ?_⟩
      by_cases hm : n ≤ m
      · rw [Nat.succ_sub hm]
        exact clear_edge hm hopen hclear
      · rw [Nat.sub_eq_zero_of_le (by omega)]
        exact clear_zero _

theorem skidChain_drains {m : Nat} (hm : 2 * n ≤ m) (is : List (Elastic.In α)) :
    let t := Clocked.run Elastic.Tally.clock (Elastic.Tally.init (skidChain f n))
      (is ++ List.replicate m ⟨false, none, true⟩)
    (skidChain f n).held t.state = [] ∧ t.sent = t.accepted.map (f^[n]) := by
  obtain ⟨hend, _, hclear⟩ := flow_run (Elastic.tally_run (skidChain f n) is).1 m
  rw [← Clocked.run_append] at hend hclear
  have hheld := held_of_clear (by omega) hclear
  refine ⟨hheld, ?_⟩
  rw [hend.2, hheld, List.append_nil]

/-- What the buffers hold, the first one's first. -/
def stages (f : α → α) : (n : Nat) → (skidChain f n).State → List (Option α)
  | 0, _ => []
  | n + 1, s => s.1.mAxisReg :: stages f n s.2

/-- An open chain hands on, as a shift register. -/
theorem stages_edge {k : Nat} (hk : n ≤ k) {s : (skidChain f n).State} (h : Open f k n s) {δ : Type}
    {v : α → δ} (hv : v ∘ f = v) (x : Option α) :
    (stages f n ((skidChain f n).edge s x true)).map (Option.map v) =
      ((x :: stages f n s).map (Option.map v)).dropLast := by
  induction n generalizing x with
  | zero => rfl
  | succ n ih =>
      rw [chain_edge_open hk h x]
      have hrest := ih (Nat.le_of_lt hk) h.2 (s.1.mAxisReg.map f)
      show Option.map v x :: (stages f n _).map (Option.map v) = _
      rw [hrest, List.map_cons, Option.map_map, hv]
      rfl

/-- The last buffer shows what it holds. -/
theorem stages_out (s : (skidChain f n).State) {δ : Type} {v : α → δ} (hv : v ∘ f = v) (x : Option α) :
    ((skidChain f n).out s x).map v = (stages f n s).getLast?.elim (x.map v) (Option.map v) := by
  induction n generalizing x with
  | zero => exact congrArg (Option.map v) Option.map_id_apply
  | succ n ih =>
      have hrest := ih s.2 (s.1.mAxisReg.map f)
      rw [Option.map_map, hv] at hrest
      show ((skidChain f n).out s.2 (s.1.mAxisReg.map f)).map v = _
      rw [hrest]
      show _ = (s.1.mAxisReg :: stages f n s.2).getLast?.elim (x.map v) (Option.map v)
      rw [List.getLast?_cons]
      cases (stages f n s.2).getLast? <;> rfl

/-- The reset empties every buffer. -/
theorem skidChain_clear (s : (skidChain f n).State) (x : Option α) (r : Bool) :
    (skidChain f n).clear s x r = (skidChain f n).init := by
  induction n generalizing x with
  | zero => rfl
  | succ n ih => exact Prod.ext rfl (ih s.2 _)

theorem reset_edge (x : Option α) (r : Bool) : (SkidRegs.reset : SkidRegs α).edge x r = ⟨true, none, none⟩ := by
  cases r <;> rfl

/-- The first edge out of the reset opens every buffer; what is offered at it is not taken. -/
theorem init_edge (x : Option α) :
    Open f n n ((skidChain f n).edge (skidChain f n).init x true) ∧
      stages f n ((skidChain f n).edge (skidChain f n).init x true) = List.replicate n none := by
  induction n generalizing x with
  | zero => exact ⟨trivial, rfl⟩
  | succ n ih =>
      obtain ⟨hopen, hstages⟩ := ih none
      have hedge : (skidChain f (n + 1)).edge (skidChain f (n + 1)).init x true =
          (⟨true, none, none⟩, (skidChain f n).edge (skidChain f n).init none true) :=
        Prod.ext (reset_edge x _) rfl
      rw [hedge]
      refine ⟨⟨fun _ => ⟨rfl, rfl⟩, ?_⟩, ?_⟩
      · exact open_all (Nat.le_refl n) hopen (n + 1)
      · exact congrArg (none :: ·) hstages

/-- What an open chain behind a ready sink holds, over a run. -/
theorem stages_run {s : (skidChain f n).State} (hinv : (skidChain f n).inv s) (ho : Open f n n s) {δ : Type}
    {v : α → δ} (hv : v ∘ f = v) {d : Delay n δ} (hd : (stages f n s).map (Option.map v) = d.stages)
    (xs : List (Option α)) :
    let s' := Clocked.run (fun s x => (skidChain f n).edge s x true) s xs
    Open f n n s' ∧ (stages f n s').map (Option.map v) =
      (Clocked.run Delay.shift d (xs.map (Option.map v))).stages := by
  induction xs generalizing s d with
  | nil => exact ⟨ho, hd⟩
  | cons x xs ih =>
      have hedge := stages_edge (Nat.le_refl n) ho hv x
      rw [List.map_cons, hd] at hedge
      have hopen := open_all (Nat.le_succ n) (open_edge hinv ho x) n
      exact ih ((skidChain f n).inv_edge s x true hinv) hopen hedge

/-- **An open chain is a delay line.** -/
theorem skidChain_delay (hn : 0 < n) {δ : Type} {v : α → δ} (hv : v ∘ f = v) (first : Option α)
    (xs : List (Option α)) :
    let s := Clocked.run (fun s x => (skidChain f n).edge s x true) (skidChain f n).init (first :: xs)
    (skidChain f n).tready s true = true ∧ ∀ x, ((skidChain f n).out s x).map v =
      (Clocked.run Delay.shift Delay.empty (xs.map (Option.map v)) : Delay n δ).last := by
  obtain ⟨hopen, hstages⟩ := init_edge (f := f) (n := n) first
  have hinv := (skidChain f n).inv_edge _ first true (skidChain f n).inv_init
  have hempty : (stages f n ((skidChain f n).edge (skidChain f n).init first true)).map (Option.map v) =
      (Delay.empty : Delay n δ).stages := by
    rw [hstages, List.map_replicate]
    rfl
  obtain ⟨hend, hsame⟩ := stages_run hinv hopen hv hempty xs
  refine ⟨open_tready (Nat.le_refl n) hend, fun x => ?_⟩
  rw [stages_out _ hv, Delay.last, ← hsame, List.getLast?_map, Clocked.run_cons]
  have hsome : (stages f n (Clocked.run (fun s x => (skidChain f n).edge s x true)
      ((skidChain f n).edge (skidChain f n).init first true) xs)) ≠ [] := by
    obtain ⟨n, rfl⟩ := Nat.exists_eq_succ_of_ne_zero (Nat.ne_of_gt hn)
    exact List.cons_ne_nil _ _
  rw [List.getLast?_eq_some_getLast hsome]
  rfl

/-- What a chain shows has passed `f`. -/
theorem out_fixed (hf : f ∘ f = f) (hn : 0 < n) (s : (skidChain f n).State) (x : Option α) :
    ((skidChain f n).out s x).map f = (skidChain f n).out s x := by
  induction n generalizing x with
  | zero => cases hn
  | succ n ih =>
      show ((skidChain f n).out s.2 (s.1.mAxisReg.map f)).map f = (skidChain f n).out s.2 (s.1.mAxisReg.map f)
      rcases Nat.eq_zero_or_pos n with rfl | hn
      · show Option.map f (Option.map id (s.1.mAxisReg.map f)) = Option.map id (s.1.mAxisReg.map f)
        rw [Option.map_id_apply, Option.map_map, hf]
      · exact ih hn s.2 _

end Flow

/-- **A pipeline drains**: whatever state a run left it in, two edges a stage at which the sink is ready
    and nothing is offered have sent all that was accepted. -/
theorem axisPipelineRegister_drains (c : AxisConfig) {regType length m : Nat} (htype : 2 ≤ regType)
    (hm : 2 * length ≤ m) (is : List (Elastic.In (Payload c))) :
    let p := axisPipelineRegister c regType length
    let t := Clocked.run Elastic.Tally.clock (Elastic.Tally.init p) (is ++ List.replicate m ⟨false, none, true⟩)
    p.held t.state = [] ∧ t.sent = t.accepted.map (Payload.propagated^[length]) := by
  obtain ⟨regType, rfl⟩ := Nat.exists_eq_add_of_le' htype
  exact skidChain_drains hm is

theorem axisPipelineRegister_drains_full :
    let p := axisPipelineRegister byteConfig 2 2
    let t := Clocked.run Elastic.Tally.clock (Elastic.Tally.init p)
      (List.replicate 6 ⟨false, some ⟨7, 0, true, 0, 0, 1⟩, false⟩ ++ List.replicate 4 ⟨false, none, true⟩)
    p.held t.state = [] ∧ t.sent = t.accepted.map (Payload.propagated^[2]) :=
  axisPipelineRegister_drains byteConfig (by decide) (by decide) _

/-- **With the sink tied to ready** the pipeline is a delay line: from the second edge out of the reset
    on it is ready at every edge, and shows what a delay line of its length shows that was given the
    same, with the lines that are not propagated at their constants. What is offered at the first edge is
    not taken. -/
theorem axisPipelineRegister_delay (c : AxisConfig) {regType length : Nat} (htype : 2 ≤ regType)
    (hlen : 0 < length) (first : Option (Payload c)) (xs : List (Option (Payload c))) :
    let p := axisPipelineRegister c regType length
    let s := Clocked.run (fun s x => p.edge s x true) p.init (first :: xs)
    p.tready s true = true ∧ ∀ x, p.out s x =
      (Clocked.run Delay.shift Delay.empty (xs.map (Option.map Payload.propagated)) :
        Delay length (Payload c)).last := by
  obtain ⟨regType, rfl⟩ := Nat.exists_eq_add_of_le' htype
  have htwice : Payload.propagated (c := c) ∘ Payload.propagated = Payload.propagated := funext propagated_twice
  obtain ⟨hready, hout⟩ := skidChain_delay hlen htwice first xs
  exact ⟨hready, fun x => (out_fixed htwice hlen _ x).symm.trans (hout x)⟩

theorem axisPipelineRegister_delay_two :
    let p := axisPipelineRegister byteConfig 2 2
    let s := Clocked.run (fun s x => p.edge s x true) p.init
      [none, some ⟨7, 0, true, 0, 0, 1⟩, some ⟨8, 0, true, 0, 0, 1⟩]
    p.tready s true = true ∧ ∀ x, p.out s x = some ⟨7, 1, true, 0, 0, 1⟩ :=
  axisPipelineRegister_delay byteConfig (by decide) (by decide) none
    [some ⟨7, 0, true, 0, 0, 1⟩, some ⟨8, 0, true, 0, 0, 1⟩]

end Frac.Axis
