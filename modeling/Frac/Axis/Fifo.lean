/-
  File:      Frac/Axis/Fifo.lean
  Subject:   The stream FIFO (taxi_axis_fifo.sv, as axis_fifo_taxi.sv makes it: no frame mode, no
             marking, no output FIFO, no pause) behind every `axis_data_fifo_*`: a memory of `2 ^ FIFO_AW`
             words with pointers one bit wider, and a read pipeline of `RAM_PIPELINE + 1` stages that
             closes its bubbles.

  * `pipeEdge` -- the read pipeline at one edge;
  * `taxiAxisFifo` -- the module, an elastic part;
  * **`taxiAxisFifo_run`** -- in every run, resets included, what it accepted since the last reset is
    what it sent, what is in the pipeline and what lies in the memory; it is ready exactly while a
    word of the memory is free; what it shows stays until it is taken;
  * `Paced` -- how far the items of the pipeline have come; **`taxiAxisFifo_refines`** -- edge by edge it
    is the queue of `2 ^ FIFO_AW + RAM_PIPELINE + 1` items, shown `RAM_PIPELINE + 2` edges late, that
    the other modules take it for;
  * **`taxiAxisFifo_drains`** -- with the sink ready it hands out all it holds, with at most a
    pipeline of edges lost.
-/
import Frac.Lib.RingBuffer
import Frac.Lib.StreamFifo

namespace Frac.Axis

variable {aw ramPipeline : Nat} {α : Type}

/-! ## 1. The read pipeline -/

/-- One edge of the read pipeline, stage 0 first, `x` read from the memory: a stage takes over what is
    before it where the output is ready or a stage from it on is a bubble
    (`m_axis_tready_pipe || (~mem_rd_valid_pipe_reg >> j) != 0`). -/
def pipeEdge (ready : Bool) (x : Option α) : List (Option α) → List (Option α)
  | [] => []
  | s :: rest => if ready || (s :: rest).any Option.isNone then x :: pipeEdge ready s rest else s :: rest

/-- What is in the pipeline, oldest first. -/
def pipeItems (pipe : List (Option α)) : List α := pipe.reverse.filterMap id

@[simp] theorem pipeItems_nil : pipeItems ([] : List (Option α)) = [] := rfl

@[simp] theorem pipeItems_cons (s : Option α) (rest : List (Option α)) :
    pipeItems (s :: rest) = pipeItems rest ++ s.toList := by
  cases s <;> simp [pipeItems]

@[simp] theorem length_pipeEdge (ready : Bool) (x : Option α) (pipe : List (Option α)) :
    (pipeEdge ready x pipe).length = pipe.length := by
  induction pipe generalizing x with
  | nil => rfl
  | cons s rest ih =>
      unfold pipeEdge
      split
      · rw [List.length_cons, ih, List.length_cons]
      · rfl

theorem length_pipeItems (pipe : List (Option α)) : (pipeItems pipe).length ≤ pipe.length := by
  have hlen : pipe.reverse.length = pipe.length := List.length_reverse
  rw [← hlen]
  exact List.length_filterMap_le id pipe.reverse

/-- **What leaves the pipeline and what stays is what was there and what is read.** -/
theorem pipeEdge_items (ready : Bool) (x : Option α) {pipe : List (Option α)} (hne : pipe ≠ []) :
    (if ready then pipe.getLast?.join else none).toList ++ pipeItems (pipeEdge ready x pipe) =
      pipeItems pipe ++ (if ready || pipe.any Option.isNone then x else none).toList := by
  induction pipe generalizing x with
  | nil => exact absurd rfl hne
  | cons s rest ih =>
      cases hrest : rest with
      | nil => cases ready <;> cases s <;> simp [pipeEdge]
      | cons s' rest' =>
          have hih := ih s (by rw [hrest]; exact List.cons_ne_nil _ _)
          rw [← hrest]
          have hlast : (s :: rest).getLast? = rest.getLast? := by rw [hrest, List.getLast?_cons_cons]
          rw [hlast]
          unfold pipeEdge
          by_cases hmove : (ready || (s :: rest).any Option.isNone) = true
          · rw [if_pos hmove, if_pos hmove, pipeItems_cons, ← List.append_assoc, hih, pipeItems_cons,
              List.append_assoc, List.append_assoc]
            -- where the stage moves and the ones after it do not, the bubble is the stage itself
            cases s with
            | none => simp
            | some a =>
                have hafter : (ready || rest.any Option.isNone) = true := by simpa using hmove
                rw [if_pos hafter]
          · have hready : ready = false := by
              cases ready with
              | false => rfl
              | true => exact absurd rfl hmove
            rw [if_neg hmove, if_neg hmove, hready]
            simp

/-- What the last stage shows stays while it is not taken. -/
theorem pipeEdge_stays (x : Option α) {pipe : List (Option α)} {y : α} (h : pipe.getLast?.join = some y) :
    (pipeEdge false x pipe).getLast?.join = some y := by
  induction pipe generalizing x with
  | nil => cases h
  | cons s rest ih =>
      cases hrest : rest with
      | nil =>
          rw [hrest] at h
          have hs : s = some y := h
          simp [pipeEdge, hs]
      | cons s' rest' =>
          have hlast : (s :: rest).getLast? = rest.getLast? := by rw [hrest, List.getLast?_cons_cons]
          rw [hlast] at h
          rw [← hrest]
          unfold pipeEdge
          split
          · have hne : pipeEdge false s rest ≠ [] := by
              refine List.ne_nil_of_length_pos ?_
              rw [length_pipeEdge, hrest]
              exact Nat.succ_pos _
            rw [List.getLast?_cons_of_ne_nil hne]
            exact ih s h
          · rw [hlast]
            exact h

/-! ## 2. The module -/

/-- The registers and the memory; a stage of the read pipeline is `none` where its valid bit is low. -/
structure FifoRegs (aw ramPipeline : Nat) (α : Type) where
  wrPtrReg : BitVec (aw + 1)
  wrPtrCommitReg : BitVec (aw + 1)
  rdPtrReg : BitVec (aw + 1)
  mem : BitVec aw → α
  memRdPipeReg : List (Option α)
  size : memRdPipeReg.length = ramPipeline + 1

namespace FifoRegs

theorem size_replicate (n : Nat) : (List.replicate n (none : Option α)).length = n := List.length_replicate

/-- What the reset leaves of any memory. -/
def reset (mem : BitVec aw → α) : FifoRegs aw ramPipeline α where
  wrPtrReg := 0
  wrPtrCommitReg := 0
  rdPtrReg := 0
  mem := mem
  memRdPipeReg := .replicate (ramPipeline + 1) none
  size := size_replicate _

variable (s : FifoRegs aw ramPipeline α)

def full : Bool := s.wrPtrReg == s.rdPtrReg ^^^ BitVec.twoPow (aw + 1) aw

def empty : Bool := s.wrPtrCommitReg == s.rdPtrReg

/-- `s_axis.tready`. -/
def sAxisTready : Bool := !s.full

/-- `m_axis.tdata`, where `m_axis.tvalid` is high. -/
def mAxis : Option α := s.memRdPipeReg.getLast?.join

/-- The first stage reads: the output is ready or there is a bubble. -/
def reads (ready : Bool) : Bool := ready || s.memRdPipeReg.any Option.isNone

/-- `mem[rd_ptr_reg]`, where the memory is not empty. -/
def memRead : Option α := if s.empty then none else some (s.mem (s.rdPtrReg.setWidth aw))

theorem size_edge (ready : Bool) :
    (pipeEdge ready s.memRead s.memRdPipeReg).length = ramPipeline + 1 :=
  (length_pipeEdge ready s.memRead s.memRdPipeReg).trans s.size

/-- The memory after an edge: it is written also at an edge with the reset. -/
def memNext (x : Option α) : BitVec aw → α :=
  match x with
  | some a => if s.sAxisTready then Function.update s.mem (s.wrPtrReg.setWidth aw) a else s.mem
  | none => s.mem

def edge (x : Option α) (ready : Bool) : FifoRegs aw ramPipeline α where
  wrPtrReg := if s.sAxisTready && x.isSome then s.wrPtrReg + 1 else s.wrPtrReg
  wrPtrCommitReg := if s.sAxisTready && x.isSome then s.wrPtrReg + 1 else s.wrPtrCommitReg
  rdPtrReg := if s.reads ready && !s.empty then s.rdPtrReg + 1 else s.rdPtrReg
  mem := s.memNext x
  memRdPipeReg := pipeEdge ready s.memRead s.memRdPipeReg
  size := size_edge s ready

/-- The edge with the reset. -/
def clear (x : Option α) : FifoRegs aw ramPipeline α := .reset (s.memNext x)

/-! ## 3. One edge -/

/-- The memory as a ring. -/
def ring : RingBuffer aw α := ⟨s.wrPtrReg, s.rdPtrReg, s.mem⟩

/-- What is under way, oldest first: the pipeline, then the memory. -/
def items : List α := pipeItems s.memRdPipeReg ++ s.ring.items

/-- The pointers never cross, and every write is committed. -/
structure Wf : Prop where
  ring : s.ring.Wf
  commit : s.wrPtrCommitReg = s.wrPtrReg

variable {s}

theorem reset_wf (mem : BitVec aw → α) : (reset mem : FifoRegs aw ramPipeline α).Wf := by
  refine ⟨?_, rfl⟩
  show (0 - 0 : BitVec (aw + 1)).toNat ≤ 2 ^ aw
  simp

theorem reset_items (mem : BitVec aw → α) : (reset mem : FifoRegs aw ramPipeline α).items = [] := by
  have hring : (reset mem : FifoRegs aw ramPipeline α).ring.items = [] := by
    refine List.eq_nil_of_length_eq_zero ?_
    rw [RingBuffer.length_items]
    show (0 - 0 : BitVec (aw + 1)).toNat = 0
    simp
  rw [items, hring, pipeItems]
  simp [reset]

theorem empty_iff (h : s.Wf) : s.empty = true ↔ s.ring.count = 0 := by
  rw [empty, h.commit]
  exact s.ring.empty_iff

theorem ready_iff (h : s.Wf) : s.sAxisTready = true ↔ s.ring.count < 2 ^ aw := by
  have hfull := s.ring.full_iff
  have hwf : s.ring.count ≤ 2 ^ aw := h.ring
  rw [sAxisTready, Bool.not_eq_true']
  show s.ring.full = false ↔ _
  rw [← Bool.not_eq_true, hfull]
  omega

/-- The ring after an edge: the item accepted is pushed, an item read is popped. -/
theorem ring_edge (s : FifoRegs aw ramPipeline α) (x : Option α) (ready : Bool) :
    (s.edge x ready).ring =
      (fun r : RingBuffer aw α => if s.reads ready && !s.empty then r.pop else r)
        ((if s.sAxisTready then x else none).elim s.ring s.ring.push) := by
  have hrd : (s.edge x ready).rdPtrReg = if s.reads ready && !s.empty then s.rdPtrReg + 1 else s.rdPtrReg := rfl
  have hwr : (s.edge x ready).wrPtrReg = if s.sAxisTready && x.isSome then s.wrPtrReg + 1 else s.wrPtrReg := rfl
  show RingBuffer.mk (s.edge x ready).wrPtrReg (s.edge x ready).rdPtrReg (s.memNext x) = _
  rw [hrd, hwr]
  cases x with
  | none =>
      rw [Option.isSome_none, Bool.and_false, ite_self]
      cases s.reads ready && !s.empty <;> rfl
  | some a =>
      have hmem : s.memNext (some a) =
          if s.sAxisTready then Function.update s.mem (s.wrPtrReg.setWidth aw) a else s.mem := rfl
      rw [hmem, Option.isSome_some, Bool.and_true]
      cases s.sAxisTready <;> cases s.reads ready && !s.empty <;> rfl

/-- The item an edge reads from the memory. -/
def memTaken (s : FifoRegs aw ramPipeline α) (ready : Bool) : Option α := if s.reads ready then s.memRead else none

/-- **The memory at an edge.** -/
theorem ring_items (h : s.Wf) (x : Option α) (ready : Bool) :
    (s.memTaken ready).toList ++ (s.edge x ready).ring.items =
        s.ring.items ++ (if s.sAxisTready then x else none).toList ∧ (s.edge x ready).ring.Wf := by
  have hring : s.ring.count ≤ 2 ^ aw := h.ring
  rw [ring_edge, memTaken, memRead]
  cases hpop : s.reads ready && !s.empty with
  | false =>
      have htaken : (if s.reads ready then (if s.empty then none else some (s.mem (s.rdPtrReg.setWidth aw)))
          else none) = none := by
        cases hr : s.reads ready with
        | false => rfl
        | true =>
            rw [hr, Bool.true_and, Bool.not_eq_false'] at hpop
            rw [hpop]
            rfl
      rw [htaken]
      cases hx : (if s.sAxisTready then x else none) with
      | none => exact ⟨(List.append_nil _).symm, hring⟩
      | some a =>
          have hlt : s.ring.count < 2 ^ aw := by
            refine (ready_iff h).mp ?_
            by_contra hr
            rw [if_neg hr] at hx
            cases hx
          refine ⟨RingBuffer.items_push hlt a, ?_⟩
          show (s.ring.push a).count ≤ 2 ^ aw
          rw [RingBuffer.count_push hlt a]
          exact hlt
  | true =>
      obtain ⟨hr, he⟩ := Bool.and_eq_true_iff.mp hpop
      rw [Bool.not_eq_true'] at he
      have hpos : 0 < s.ring.count := by
        refine Nat.pos_of_ne_zero fun h0 => ?_
        rw [(empty_iff h).mpr h0] at he
        cases he
      rw [hr, he, if_pos rfl, if_neg Bool.false_ne_true]
      cases hx : (if s.sAxisTready then x else none) with
      | none =>
          refine ⟨?_, ?_⟩
          · rw [Option.toList_none, List.append_nil]
            exact (RingBuffer.items_pop hpos).symm
          · have hcount := RingBuffer.count_pop hpos
            show s.ring.pop.count ≤ 2 ^ aw
            omega
      | some a =>
          have hlt : s.ring.count < 2 ^ aw := by
            refine (ready_iff h).mp ?_
            by_contra hn
            rw [if_neg hn] at hx
            cases hx
          refine ⟨RingBuffer.items_push_pop hlt hpos a, ?_⟩
          have hpush := RingBuffer.count_push hlt a
          have hcount := RingBuffer.count_pop (r := s.ring.push a) (by omega)
          show (s.ring.push a).pop.count ≤ 2 ^ aw
          omega

theorem edge_wf (h : s.Wf) (x : Option α) (ready : Bool) : (s.edge x ready).Wf := by
  refine ⟨(ring_items h x ready).2, ?_⟩
  have hcommit : (s.edge x ready).wrPtrCommitReg =
    if s.sAxisTready && x.isSome then s.wrPtrReg + 1 else s.wrPtrCommitReg := rfl
  rw [hcommit, h.commit]
  rfl

theorem pipe_ne (s : FifoRegs aw ramPipeline α) : s.memRdPipeReg ≠ [] := by
  refine List.ne_nil_of_length_pos ?_
  rw [s.size]
  exact Nat.succ_pos _

/-- **What leaves and what stays is what was there and what came in.** -/
theorem edge_items (h : s.Wf) (x : Option α) (ready : Bool) :
    (if ready then s.mAxis else none).toList ++ (s.edge x ready).items =
      s.items ++ ((if s.sAxisTready then x else none).map id).toList := by
  have hpipe := pipeEdge_items ready s.memRead s.pipe_ne
  have hring := (ring_items h x ready).1
  rw [Option.map_id, id, items, items, List.append_assoc (pipeItems s.memRdPipeReg), ← hring,
    ← List.append_assoc, ← List.append_assoc]
  exact congrArg (· ++ (s.edge x ready).ring.items) hpipe

theorem edge_stays {y : α} (hy : s.mAxis = some y) (x : Option α) : (s.edge x false).mAxis = some y :=
  pipeEdge_stays s.memRead hy

theorem bound (h : s.Wf) : s.items.length ≤ 2 ^ aw + (ramPipeline + 1) := by
  have hpipe := length_pipeItems s.memRdPipeReg
  have hring : s.ring.count ≤ 2 ^ aw := h.ring
  rw [s.size] at hpipe
  rw [items, List.length_append, RingBuffer.length_items]
  omega

end FifoRegs

/-- `taxi_axis_fifo` with a memory as it was found. -/
def taxiAxisFifo (aw ramPipeline : Nat) (mem : BitVec aw → α) : Elastic (id : α → α) where
  State := FifoRegs aw ramPipeline α
  init := .reset mem
  out s _ := s.mAxis
  tready s _ := s.sAxisTready
  edge := .edge
  clear s x _ := s.clear x
  inv := FifoRegs.Wf
  held := FifoRegs.items
  cap := 2 ^ aw + (ramPipeline + 1)
  inv_init := FifoRegs.reset_wf mem
  inv_edge _ x r h := FifoRegs.edge_wf h x r
  inv_clear s x _ _ := FifoRegs.reset_wf (s.memNext x)
  held_init := FifoRegs.reset_items mem
  held_clear s x _ _ := FifoRegs.reset_items (s.memNext x)
  bound _ h := FifoRegs.bound h
  items _ x r h := FifoRegs.edge_items h x r
  stays _ x _ _ _ hy _ := FifoRegs.edge_stays hy x

/-! ## 4. Runs -/

/-- **In every run**, resets at any edges included: what the FIFO accepted since the last reset is, in
    order, what it sent since then, what is in its read pipeline and what lies in its memory; it is ready
    exactly while a word of the memory is free; and what it shows stays, unchanged, while the sink is
    not ready. -/
theorem taxiAxisFifo_run (aw ramPipeline : Nat) (mem : BitVec aw → α) (is : List (Elastic.In α)) :
    let p := taxiAxisFifo aw ramPipeline mem
    let t := Clocked.run Elastic.Tally.clock (Elastic.Tally.init p) is
    t.accepted = t.sent ++ pipeItems t.state.memRdPipeReg ++ t.state.ring.items ∧
      t.state.ring.items.length ≤ 2 ^ aw ∧
      (t.state.sAxisTready = true ↔ t.state.ring.items.length < 2 ^ aw) ∧
      ∀ x y xs, t.state.mAxis = some y → (p.stall t.state x xs).1.mAxis = some y := by
  intro p t
  obtain ⟨hinv, hbal⟩ := (Elastic.tally_run p is).1
  rw [List.map_id] at hbal
  have hwf : t.state.Wf := hinv
  refine ⟨?_, ?_, ?_, fun x y xs hy => ?_⟩
  · rw [List.append_assoc]
    exact hbal
  · rw [RingBuffer.length_items]
    exact hwf.ring
  · rw [RingBuffer.length_items]
    exact FifoRegs.ready_iff hwf
  · exact Elastic.out_stall_held (p := p) (fun _ _ => rfl) hinv hy x xs

/-! ## 5. Its latency -/

/-- How far the items of a pipeline have come, from some stage on: of the `total` in the FIFO all have
    come to a stage, as far as there is room, but the latest ones. `late` are not due at any of these
    stages; `recent` says whether one came in at each edge before. -/
def Paced (total : Nat) : Nat → List (Option α) → List Bool → Prop
  | late, s :: rest, b :: recent =>
      (pipeItems (s :: rest)).length = min (total - (late + b.toNat)) (rest.length + 1) ∧
        Paced total (late + b.toNat) rest recent
  | _, _, _ => True

theorem paced_empty (late n : Nat) : Paced 0 late (List.replicate n (none : Option α)) (List.replicate n false) := by
  induction n generalizing late with
  | zero => trivial
  | succ n ih =>
      refine ⟨?_, ih _⟩
      rw [← List.replicate_succ, pipeItems, List.reverse_replicate, Nat.zero_sub, Nat.zero_min]
      simp

theorem any_isNone_iff (pipe : List (Option α)) :
    pipe.any Option.isNone = true ↔ (pipeItems pipe).length < pipe.length := by
  induction pipe with
  | nil => simp
  | cons s rest ih =>
      have hle := length_pipeItems rest
      rw [List.any_cons, Bool.or_eq_true, ih, pipeItems_cons, List.length_append, List.length_cons]
      cases s with
      | none => simp; omega
      | some a => simp

/-- Where a stage moves or not, the stages after it do the same. -/
theorem pipeEdge_tail (ready : Bool) (x s : Option α) (rest : List (Option α)) :
    ∃ y, pipeEdge ready x (s :: rest) = y :: pipeEdge ready s rest := by
  rw [pipeEdge]
  split
  · exact ⟨x, rfl⟩
  · rename_i hmove
    refine ⟨s, congrArg (s :: ·) ?_⟩
    cases rest with
    | nil => rfl
    | cons s' rest' =>
        have hstay : ¬ (ready || (s' :: rest').any Option.isNone) = true := fun h => hmove (by
          rw [List.any_cons, Bool.or_left_comm, h, Bool.or_true])
        rw [pipeEdge, if_neg hstay]

/-- The last stage of a pipeline without a bubble shows an item. -/
theorem getLast_of_full {pipe : List (Option α)} (hne : pipe ≠ []) (h : pipe.any Option.isNone = false) :
    pipe.getLast?.join.toList.length = 1 := by
  rw [List.getLast?_eq_some_getLast hne]
  have hlast := List.any_eq_false.mp h _ (List.getLast_mem hne)
  cases hl : pipe.getLast hne with
  | none => exact absurd (by rw [hl]; rfl) hlast
  | some a => rfl

/-- **One edge of the pipeline.** `x` is before its first stage; at the edge an item comes in or not, `b`
    at the edge before, and `out` leave. -/
theorem paced_edge {total total' late late' out w : Nat} {ready b : Bool} {x : Option α}
    {pipe : List (Option α)} {recent : List Bool} (hsize : recent.length = pipe.length)
    (h : Paced total late pipe recent)
    (hin : (pipeItems pipe).length + x.toList.length = min (total - late) (pipe.length + 1))
    (hout : pipe ≠ [] → (if ready then pipe.getLast?.join else none).toList.length = out)
    (htotal : total' + out = total + w) (hlate : late' + b.toNat = late + w) :
    Paced total' late' (pipeEdge ready x pipe) (b :: recent).dropLast := by
  induction pipe generalizing x late late' b recent with
  | nil =>
      unfold pipeEdge Paced
      trivial
  | cons s rest ih =>
      obtain ⟨c, recent, rfl⟩ : ∃ c cs, recent = c :: cs := List.exists_cons_of_length_eq_add_one hsize
      obtain ⟨hhere, hrest⟩ := h
      have hitems := congrArg List.length (pipeEdge_items ready x (List.cons_ne_nil s rest))
      rw [List.length_append, List.length_append, hout (List.cons_ne_nil s rest)] at hitems
      have hbubble := any_isNone_iff (s :: rest)
      obtain ⟨y, hy⟩ := pipeEdge_tail ready x s rest
      rw [hy] at hitems ⊢
      have hle := length_pipeItems (s :: rest)
      rw [List.length_cons] at hbubble hin hle
      refine ⟨?_, ih (by simpa using hsize) hrest ?_ (fun hne => ?_) ?_⟩
      · rw [length_pipeEdge]
        cases hfree : (s :: rest).any Option.isNone with
        | true =>
            -- a bubble: all stages up to it move
            have hlt := hbubble.mp hfree
            have hone := Option.length_toList_le (o := if ready then (s :: rest).getLast?.join else none)
            rw [hout (List.cons_ne_nil s rest)] at hone
            have hnext := Option.length_toList_le (o := x)
            rw [hfree, Bool.or_true, if_pos rfl] at hitems
            omega
        | false =>
            have hfull : ¬ (pipeItems (s :: rest)).length < rest.length + 1 := fun h => by
              rw [hbubble.mpr h] at hfree
              cases hfree
            have hlast := hout (List.cons_ne_nil s rest)
            rw [hfree, Bool.or_false] at hitems
            cases ready with
            | true =>
                rw [if_pos rfl, getLast_of_full (List.cons_ne_nil s rest) hfree] at hlast
                rw [if_pos rfl] at hitems
                omega
            | false =>
                rw [if_neg Bool.false_ne_true] at hlast hitems
                have hzero : out = 0 := hlast.symm
                rw [Option.toList_none, List.length_nil] at hitems
                omega
      · rw [pipeItems_cons, List.length_append] at hhere
        exact hhere
      · rw [← hout (List.cons_ne_nil s rest), List.getLast?_cons_of_ne_nil hne]
      · omega

/-- The first stage holds all that is due there. -/
theorem paced_here {total late : Nat} {pipe : List (Option α)} {recent : List Bool}
    (hsize : recent.length = pipe.length) (hne : pipe ≠ []) (h : Paced total late pipe recent) :
    ∃ b : Bool, (pipeItems pipe).length = min (total - (late + b.toNat)) pipe.length := by
  cases pipe with
  | nil => exact absurd rfl hne
  | cons s rest =>
      obtain ⟨b, recent, rfl⟩ : ∃ c cs, recent = c :: cs := List.exists_cons_of_length_eq_add_one hsize
      exact ⟨b, h.1⟩

/-- The last stage shows an item as soon as one is due there. -/
theorem paced_last {total late : Nat} {pipe : List (Option α)} {recent : List Bool}
    (hsize : recent.length = pipe.length) (hne : pipe ≠ []) (h : Paced total late pipe recent) :
    pipe.getLast?.join.isSome = decide (late + recent.count true < total) := by
  induction pipe generalizing late recent with
  | nil => exact absurd rfl hne
  | cons s rest ih =>
      obtain ⟨b, recent, rfl⟩ : ∃ c cs, recent = c :: cs := List.exists_cons_of_length_eq_add_one hsize
      have hcount : late + (b :: recent).count true = late + b.toNat + recent.count true := by
        cases b with
        | false => simp
        | true =>
            rw [List.count_cons_self, Bool.toNat_true]
            omega
      rw [hcount]
      cases hrest : rest with
      | nil =>
          rw [hrest] at h hsize
          have hhere := h.1
          obtain rfl : recent = [] := List.eq_nil_of_length_eq_zero (Nat.succ_injective hsize)
          cases s <;> simp at hhere ⊢ <;> omega
      | cons s' rest' =>
          rw [← hrest, List.getLast?_cons_of_ne_nil (by rw [hrest]; exact List.cons_ne_nil _ _)]
          exact ih (Nat.succ_injective hsize) (by rw [hrest]; exact List.cons_ne_nil _ _) h.2

namespace FifoRegs

variable {s : FifoRegs aw ramPipeline α} {q : StreamFifo (2 ^ aw + (ramPipeline + 1)) (ramPipeline + 1) α}

/-- **The registers and the queue they stand for**: the same items, and those of the pipeline as far as
    the queue's latency lets them be. -/
structure Shadows (s : FifoRegs aw ramPipeline α)
    (q : StreamFifo (2 ^ aw + (ramPipeline + 1)) (ramPipeline + 1) α) : Prop where
  wf : s.Wf
  items : s.items = q.items
  paced : Paced q.items.length 0 s.memRdPipeReg q.recent

theorem recent_size (s : FifoRegs aw ramPipeline α)
    (q : StreamFifo (2 ^ aw + (ramPipeline + 1)) (ramPipeline + 1) α) :
    q.recent.length = s.memRdPipeReg.length := q.size.trans s.size.symm

theorem shadows_reset (mem : BitVec aw → α) :
    (reset mem : FifoRegs aw ramPipeline α).Shadows .empty where
  wf := reset_wf mem
  items := reset_items mem
  paced := paced_empty 0 (ramPipeline + 1)

theorem shadows_length (h : s.Shadows q) :
    q.items.length = (pipeItems s.memRdPipeReg).length + s.ring.count := by
  rw [← h.items, FifoRegs.items, List.length_append, RingBuffer.length_items]

/-- The queue is full exactly when the memory is: items stay in the memory only behind a full pipeline,
    but for one that has just come in. -/
theorem shadows_tready (haw : 1 ≤ aw) (h : s.Shadows q) : s.sAxisTready = q.tready := by
  have hlen := shadows_length h
  obtain ⟨b, hhere⟩ := paced_here (s.recent_size q) s.pipe_ne h.paced
  rw [s.size] at hhere
  have hb : b.toNat ≤ 1 := Bool.toNat_le b
  have htwo : 2 ≤ 2 ^ aw := Nat.pow_le_pow_right Nat.zero_lt_two haw
  have hle : s.ring.count ≤ 2 ^ aw := h.wf.ring
  rw [Bool.eq_iff_iff, ready_iff h.wf, Fifo.tready_iff]
  omega

theorem shadows_mAxis (h : s.Shadows q) : s.mAxis = q.head? := by
  have hlast := paced_last (s.recent_size q) s.pipe_ne h.paced
  rw [Nat.zero_add] at hlast
  have hvalid : s.mAxis.isSome = q.tvalid := hlast
  cases hm : s.mAxis with
  | none =>
      rw [hm] at hvalid
      rw [StreamFifo.head?, ← hvalid]
      rfl
  | some y =>
      rw [hm] at hvalid
      -- what the last stage shows is the oldest item
      have hitems := edge_items h.wf none true
      rw [if_pos rfl, hm, ite_self, Option.map_none, Option.toList_none, List.append_nil, h.items] at hitems
      rw [StreamFifo.head?, ← hvalid, Option.isSome_some, Fifo.popped_true, ← hitems]
      rfl

/-- **One edge** of the registers and of the queue. -/
theorem shadows_edge (haw : 1 ≤ aw) (h : s.Shadows q) (x : Option α) (ready : Bool) :
    (s.edge x ready).Shadows (q.edge x ready) := by
  have hs := edge_items h.wf x ready
  have hq := q.edge_items x ready
  rw [Option.map_id, id, shadows_tready haw h, shadows_mAxis h, h.items] at hs
  rw [StreamFifo.popped_eq, Fifo.written] at hq
  have hitems : (s.edge x ready).items = (q.edge x ready).items := List.append_cancel_left (hs.trans hq.symm)
  refine ⟨edge_wf h.wf x ready, hitems, ?_⟩
  have hcount := congrArg List.length hq
  rw [List.length_append, List.length_append] at hcount
  have hrecent : (q.edge x ready).recent = ((q.written x).isSome :: q.recent).dropLast := by
    rw [List.dropLast_eq_take, List.length_cons, q.size]
    rfl
  have hread : (pipeItems s.memRdPipeReg).length + s.memRead.toList.length =
      min (q.items.length - 0) (s.memRdPipeReg.length + 1) := by
    have hlen := shadows_length h
    obtain ⟨b, hhere⟩ := paced_here (s.recent_size q) s.pipe_ne h.paced
    have hb : b.toNat ≤ 1 := Bool.toNat_le b
    have hempty := empty_iff h.wf
    rw [memRead]
    cases he : s.empty with
    | true =>
        have hzero := hempty.mp he
        rw [if_pos rfl, Option.toList_none, List.length_nil]
        omega
    | false =>
        have hpos : s.ring.count ≠ 0 := fun e => by
          rw [hempty.mpr e] at he
          cases he
        rw [if_neg Bool.false_ne_true, Option.toList_some, List.length_singleton]
        omega
  rw [hrecent]
  refine paced_edge (s.recent_size q) h.paced hread (fun _ => rfl)
    (w := (if q.tready then x else none).toList.length) ?_ ?_
  · have hshown : (if ready then s.memRdPipeReg.getLast?.join else none) = if ready then q.head? else none := by
      rw [show s.memRdPipeReg.getLast?.join = q.head? from shadows_mAxis h]
    rw [hshown]
    omega
  · rw [Fifo.written]
    cases (if q.tready then x else none) <;> rfl

end FifoRegs

/-- **It is a queue of `2 ^ FIFO_AW + RAM_PIPELINE + 1` items with a latency of `RAM_PIPELINE + 2`
    edges.** -/
theorem taxiAxisFifo_matches (haw : 1 ≤ aw) (mem : BitVec aw → α) :
    Elastic.Matches (taxiAxisFifo aw ramPipeline mem)
      (StreamFifo.part (2 ^ aw + (ramPipeline + 1)) (ramPipeline + 1) α) FifoRegs.Shadows where
  init := FifoRegs.shadows_reset mem
  out _ _ _ h := FifoRegs.shadows_mAxis h
  tready _ _ _ h := FifoRegs.shadows_tready haw h
  edge _ _ x r h := FifoRegs.shadows_edge haw h x r
  clear s _ x _ _ := FifoRegs.shadows_reset (s.memNext x)

/-- **In every run**, resets at any edges included, the FIFO and the queue beside it hold the same, are
    ready at the same edges, show the same, and have accepted and sent the same: an item that finds the
    queue empty is shown `RAM_PIPELINE + 2` edges after the edge that takes it. -/
theorem taxiAxisFifo_refines (aw ramPipeline : Nat) (haw : 1 ≤ aw) (mem : BitVec aw → α)
    (is : List (Elastic.In α)) :
    let t := Clocked.run Elastic.Tally.clock (Elastic.Tally.init (taxiAxisFifo aw ramPipeline mem)) is
    let q := Clocked.run Elastic.Tally.clock
      (Elastic.Tally.init (StreamFifo.part (2 ^ aw + (ramPipeline + 1)) (ramPipeline + 1) α)) is
    t.state.items = q.state.items ∧ t.state.sAxisTready = q.state.tready ∧ t.state.mAxis = q.state.head? ∧
      t.accepted = q.accepted ∧ t.sent = q.sent := by
  intro t q
  obtain ⟨hstate, haccepted, hsent⟩ := Elastic.matches_run (taxiAxisFifo_matches haw mem) is
  exact ⟨hstate.items, FifoRegs.shadows_tready haw hstate, FifoRegs.shadows_mAxis hstate, haccepted, hsent⟩

/-- A memory of four words and two stages: of eight items offered it takes six, and hands out two. -/
theorem taxiAxisFifo_refines_four :
    let is := List.replicate 8 ⟨false, some 1, false⟩ ++ List.replicate 2 ⟨false, none, true⟩
    let t := Clocked.run Elastic.Tally.clock (Elastic.Tally.init (taxiAxisFifo 2 1 fun _ => (0 : Fin 2))) is
    let q := Clocked.run Elastic.Tally.clock
      (Elastic.Tally.init (StreamFifo.part (2 ^ 2 + (1 + 1)) (1 + 1) (Fin 2))) is
    (t.state.items = q.state.items ∧ t.state.sAxisTready = q.state.tready ∧ t.state.mAxis = q.state.head? ∧
      t.accepted = q.accepted ∧ t.sent = q.sent) ∧ q.accepted.length = 6 ∧ q.sent.length = 2 :=
  ⟨taxiAxisFifo_refines 2 1 (by decide) _ _, by decide +kernel, by decide +kernel⟩

/-! ## 6. Draining -/

section Drain

variable {s : FifoRegs aw ramPipeline α}

/-- With the output ready the pipeline is a shift register. -/
theorem pipeEdge_ready (x : Option α) (pipe : List (Option α)) : pipeEdge true x pipe = (x :: pipe).dropLast := by
  induction pipe generalizing x with
  | nil => rfl
  | cons s rest ih =>
      rw [pipeEdge, if_pos (Bool.true_or _), ih, List.dropLast_cons_of_ne_nil (List.cons_ne_nil _ _)]

/-- `m` edges on: `c` words less `m`, and from then on a bubble more at each. -/
structure FifoRegs.Drains (s : FifoRegs aw ramPipeline α) (c m : Nat) : Prop where
  wf : s.Wf
  count : s.ring.count = c - m
  bubbles : ∀ o ∈ s.memRdPipeReg.take (m - c), o = none

theorem FifoRegs.drains_edge {c m : Nat} (h : s.Drains c m) : (s.edge none true).Drains c (m + 1) := by
  have hpipe : (s.edge none true).memRdPipeReg = (s.memRead :: s.memRdPipeReg).dropLast :=
    pipeEdge_ready _ _
  have hreads : s.reads true = true := rfl
  have hnone : (if s.sAxisTready then (none : Option α) else none) = none := ite_self none
  refine ⟨edge_wf h.wf none true, ?_, ?_⟩
  · rw [ring_edge, hreads, hnone, Bool.true_and]
    cases he : s.empty with
    | true =>
        have hzero := (empty_iff h.wf).mp he
        have hcount := h.count
        show s.ring.count = _
        omega
    | false =>
        have hpos : 0 < s.ring.count := by
          refine Nat.pos_of_ne_zero fun h0 => ?_
          rw [(empty_iff h.wf).mpr h0] at he
          cases he
        have hcount := h.count
        have hpop := RingBuffer.count_pop hpos
        show s.ring.pop.count = _
        omega
  · rw [hpipe]
    intro o ho
    by_cases hm : c ≤ m
    · have hzero : s.ring.count = 0 := by
        rw [h.count]
        exact Nat.sub_eq_zero_of_le hm
      have hread : s.memRead = none := if_pos ((empty_iff h.wf).mpr hzero)
      rw [Nat.succ_sub hm, hread] at ho
      have hpre : ((none :: s.memRdPipeReg).dropLast.take (m - c + 1)) <+: (none :: s.memRdPipeReg).take (m - c + 1) := by
        rw [List.dropLast_eq_take, List.take_take]
        exact List.take_prefix_take_left (Nat.min_le_left _ _)
      rcases List.mem_cons.mp (hpre.subset ho) with e | ho
      · exact e
      · exact h.bubbles o ho
    · rw [Nat.sub_eq_zero_of_le (by omega)] at ho
      cases ho

theorem FifoRegs.drains_items {c m : Nat} (h : s.Drains c m) (hm : c + ramPipeline + 1 ≤ m) : s.items = [] := by
  have hring : s.ring.items = [] := by
    refine List.eq_nil_of_length_eq_zero ?_
    rw [RingBuffer.length_items, h.count]
    omega
  have hpipe : pipeItems s.memRdPipeReg = [] := by
    refine List.filterMap_eq_nil_iff.mpr fun o ho => h.bubbles o ?_
    rw [List.take_of_length_le (by rw [s.size]; omega)]
    exact List.mem_reverse.mp ho
  rw [items, hring, hpipe]
  rfl

theorem drains_run {mem : BitVec aw → α} {t : Elastic.Tally (taxiAxisFifo aw ramPipeline mem)} (h : t.Balanced)
    (m : Nat) :
    let t' := Clocked.run Elastic.Tally.clock t (List.replicate m ⟨false, none, true⟩)
    t'.Balanced ∧ FifoRegs.Drains t'.state (FifoRegs.ring t.state).count m := by
  induction m with
  | zero => exact ⟨h, h.1, rfl, fun o ho => by rw [Nat.zero_sub] at ho; cases ho⟩
  | succ m ih =>
      obtain ⟨hbal, hdrains⟩ := ih
      rw [List.replicate_succ', Clocked.run_append, Clocked.run_cons, Clocked.run_nil]
      exact ⟨Elastic.Tally.balanced_clock hbal _, FifoRegs.drains_edge hdrains⟩

end Drain

/-- **The FIFO drains** at one word an edge: whatever state a run left it in, once the sink has been ready
    and nothing offered for as many edges as there are words in the memory and stages in the read
    pipeline, all that was accepted has been sent. -/
theorem taxiAxisFifo_drains (aw ramPipeline : Nat) (mem : BitVec aw → α) (is : List (Elastic.In α)) {m : Nat} :
    let p := taxiAxisFifo aw ramPipeline mem
    let t := Clocked.run Elastic.Tally.clock (Elastic.Tally.init p) is
    let t' := Clocked.run Elastic.Tally.clock t (List.replicate m ⟨false, none, true⟩)
    t.state.ring.items.length + ramPipeline + 1 ≤ m → t'.state.items = [] ∧ t'.sent = t'.accepted := by
  intro p t t' hm
  have hbal : t.Balanced := (Elastic.tally_run p is).1
  obtain ⟨hend, hdrains⟩ := drains_run hbal m
  rw [RingBuffer.length_items] at hm
  have hitems : t'.state.items = [] := FifoRegs.drains_items hdrains hm
  refine ⟨hitems, ?_⟩
  have hall := hend.2
  rw [List.map_id] at hall
  have hheld : (taxiAxisFifo aw ramPipeline mem).held t'.state = [] := hitems
  exact ((hall.trans (congrArg (t'.sent ++ ·) hheld)).trans (List.append_nil _)).symm

/-- Eight edges fill a memory of four words and the pipeline behind it, eight more empty them. -/
theorem taxiAxisFifo_drains_four :
    let p := taxiAxisFifo 2 1 fun _ => (0 : Fin 2)
    let t := Clocked.run Elastic.Tally.clock (Elastic.Tally.init p) (List.replicate 8 ⟨false, some 1, false⟩)
    let t' := Clocked.run Elastic.Tally.clock t (List.replicate 8 ⟨false, none, true⟩)
    t'.state.items = [] ∧ t'.sent = t'.accepted :=
  taxiAxisFifo_drains 2 1 (fun _ => 0) (List.replicate 8 ⟨false, some 1, false⟩) (by decide +kernel)

end Frac.Axis
