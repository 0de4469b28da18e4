/-
  File:      Frac/Lib/StreamFifo.lean
  Subject:   A bounded FIFO with a read latency: an item is shown that many edges after it could be at
             the earliest, and once an item is old enough it is shown as soon as it is the first. The
             write side is ready as long as there is room. Nothing here names a circuit.

  * `StreamFifo` -- the items, and at which of the last edges one came in; `StreamFifo.edge`;
  * `StreamFifo.edge_items` -- **what leaves and what stays is what was there and what came in**;
  * `StreamFifo.edge_short` -- a FIFO that is read at every edge stays short;
  * `StreamFifo.settling` -- how long, with nothing coming in, until the first item is shown
    (`StreamFifo.head?_settled`);
  * `StreamFifo.part` -- the FIFO as an elastic part.
-/
import Frac.Lib.Elastic
import Frac.Lib.Fifo

/-- A FIFO whose items are shown `latency` edges late. -/
structure StreamFifo (depth latency : Nat) (α : Type*) extends Fifo depth α where
  /-- whether an item came in at each of the last edges, the last one first -/
  recent : List Bool
  size : recent.length = latency
  /-- those are all still there -/
  held : recent.count true ≤ items.length

namespace StreamFifo

variable {depth latency : Nat} {α : Type*}

theorem size_empty (latency : Nat) : (List.replicate latency false).length = latency := List.length_replicate

theorem held_empty (latency : Nat) : (List.replicate latency false).count true ≤ ([] : List α).length := by
  rw [List.count_replicate]
  exact Nat.le_refl 0

def empty : StreamFifo depth latency α := ⟨.empty, .replicate latency false, size_empty latency, held_empty latency⟩

/-- `m_axis_tvalid`: there is an item that is old enough. -/
def tvalid (f : StreamFifo depth latency α) : Bool := decide (f.recent.count true < f.items.length)

/-- `m_axis_tdata`, where `m_axis_tvalid` is high. -/
def head? (f : StreamFifo depth latency α) : Option α := f.toFifo.popped f.tvalid

/-- The item the edge hands out, when the reader is `ready`. -/
def popped (f : StreamFifo depth latency α) (ready : Bool) : Option α := f.toFifo.popped (ready && f.tvalid)

/-- Whether an item came in at each of the last edges, one edge later. -/
def recentNext (f : StreamFifo depth latency α) (w : Option α) : List Bool :=
  ((f.written w).isSome :: f.recent).take latency

theorem size_edge (f : StreamFifo depth latency α) (w : Option α) : (f.recentNext w).length = latency := by
  rw [recentNext, List.length_take, List.length_cons, f.size]
  exact Nat.min_eq_left (Nat.le_succ latency)

theorem count_recentNext (f : StreamFifo depth latency α) (w : Option α) :
    (f.recentNext w).count true ≤ f.recent.count true + (f.written w).toList.length := by
  refine (List.Sublist.count_le _ (List.take_sublist latency _)).trans ?_
  cases f.written w <;> simp

/-- Of those the oldest one counts no longer. -/
theorem count_recent_le (f : StreamFifo depth latency α) (w : Option α) :
    f.recent.count true + (f.written w).toList.length ≤ (f.recentNext w).count true + 1 := by
  have hsplit : ((f.written w).isSome :: f.recent).count true = (f.recentNext w).count true +
      (((f.written w).isSome :: f.recent).drop latency).count true := by
    rw [recentNext, ← List.count_append, List.take_append_drop]
  have hdrop : (((f.written w).isSome :: f.recent).drop latency).count true ≤ 1 := by
    refine List.count_le_length.trans ?_
    rw [List.length_drop, List.length_cons, f.size]
    omega
  have hcons : ((f.written w).isSome :: f.recent).count true =
      f.recent.count true + (f.written w).toList.length := by
    cases f.written w <;> simp
  omega

theorem held_edge (f : StreamFifo depth latency α) (w : Option α) (ready : Bool) :
    (f.recentNext w).count true ≤ (f.toFifo.edge w (ready && f.tvalid)).items.length := by
  have hcount := f.count_recentNext w
  have hheld := f.held
  have hitems : (f.toFifo.edge w (ready && f.tvalid)).items =
      (if ready && f.tvalid then f.items.tail else f.items) ++ (f.written w).toList := rfl
  rw [hitems, List.length_append]
  cases hpop : ready && f.tvalid with
  | false =>
      rw [if_neg Bool.false_ne_true]
      omega
  | true =>
      -- an item is read only while there is an old one
      have hold : f.recent.count true < f.items.length := of_decide_eq_true (Bool.and_eq_true_iff.mp hpop).2
      rw [if_pos rfl, List.length_tail]
      omega

/-- One edge: `w` is offered on the write side, `ready` is the reader's. -/
def edge (f : StreamFifo depth latency α) (w : Option α) (ready : Bool) : StreamFifo depth latency α :=
  ⟨f.toFifo.edge w (ready && f.tvalid), f.recentNext w, size_edge f w, held_edge f w ready⟩

/-! ## 1. Items -/

@[simp] theorem empty_items : (empty : StreamFifo depth latency α).items = [] := rfl

@[simp] theorem popped_false (f : StreamFifo depth latency α) : f.popped false = none := rfl

theorem popped_true (f : StreamFifo depth latency α) : f.popped true = f.head? := rfl

theorem popped_eq (f : StreamFifo depth latency α) (ready : Bool) :
    f.popped ready = if ready then f.head? else none := by
  cases ready <;> rfl

/-- What is shown is the first item. -/
theorem head_of_head? {f : StreamFifo depth latency α} {x : α} (h : f.head? = some x) :
    f.items.head? = some x := by
  unfold head? Fifo.popped at h
  split at h
  · exact h
  · cases h

/-- `m_axis_tvalid` is high where something is shown. -/
theorem tvalid_eq (f : StreamFifo depth latency α) : f.tvalid = f.head?.isSome := by
  unfold head?
  cases hv : f.tvalid with
  | false => rfl
  | true =>
      have hlt : f.recent.count true < f.items.length := of_decide_eq_true hv
      rw [Fifo.popped_true]
      cases hl : f.items with
      | nil => rw [hl] at hlt; exact absurd hlt (Nat.not_lt_zero _)
      | cons x xs => rfl

theorem head?_of_empty {f : StreamFifo depth latency α} (h : f.items = []) : f.head? = none := by
  cases hx : f.head? with
  | none => rfl
  | some x =>
      have := head_of_head? hx
      rw [h] at this
      cases this

theorem tvalid_of_empty {f : StreamFifo depth latency α} (h : f.items = []) : f.tvalid = false := by
  rw [tvalid_eq, head?_of_empty h]
  rfl

/-- **What leaves and what stays is what was there and what came in.** -/
theorem edge_items (f : StreamFifo depth latency α) (w : Option α) (ready : Bool) :
    (f.popped ready).toList ++ (f.edge w ready).items = f.items ++ (f.written w).toList :=
  Fifo.edge_items f.toFifo w (ready && f.tvalid)

theorem edge_items_hold (f : StreamFifo depth latency α) (w : Option α) :
    (f.edge w false).items = f.items ++ (f.written w).toList :=
  Fifo.edge_items_hold f.toFifo w

theorem edge_items_none (f : StreamFifo depth latency α) : (f.edge none false).items = f.items := by
  rw [edge_items_hold, Fifo.written_none]
  exact List.append_nil _

/-- An edge that hands nothing out and has room takes in what is offered. -/
theorem edge_items_fit {f : StreamFifo depth latency α} {w : Option α} {ready : Bool}
    (hfit : f.items.length + w.toList.length ≤ depth) (hidle : ready = true → f.items = []) :
    (f.edge w ready).items = f.items ++ w.toList :=
  Fifo.edge_items_fit hfit fun h => hidle (Bool.and_eq_true_iff.mp h).1

theorem edge_items_empty {f : StreamFifo depth latency α} (h : f.items = []) (ready : Bool) :
    (f.edge none ready).items = [] :=
  Fifo.edge_items_empty h _

/-- An item of the next contents was there or came in. -/
theorem mem_edge {f : StreamFifo depth latency α} {w : Option α} {ready : Bool} {x : α}
    (h : x ∈ (f.edge w ready).items) : x ∈ f.items ∨ w = some x :=
  Fifo.mem_edge h

theorem mem_of_popped {f : StreamFifo depth latency α} {ready : Bool} {x : α} (h : f.popped ready = some x) :
    x ∈ f.items :=
  Fifo.mem_of_popped h

/-- **A FIFO that is read at every edge** holds one item besides those that came in last. -/
theorem edge_short {f : StreamFifo depth latency α} (h : f.items.length ≤ f.recent.count true + 1)
    (w : Option α) : (f.edge w true).items.length ≤ (f.edge w true).recent.count true + 1 := by
  have hcount := f.count_recent_le w
  have hitems : (f.edge w true).items =
      (if f.tvalid then f.items.tail else f.items) ++ (f.written w).toList := rfl
  have hrecent : (f.edge w true).recent = f.recentNext w := rfl
  rw [hitems, hrecent, List.length_append]
  cases hv : f.tvalid with
  | false =>
      have hold : ¬ f.recent.count true < f.items.length := of_decide_eq_false hv
      rw [if_neg Bool.false_ne_true]
      omega
  | true =>
      rw [if_pos rfl, List.length_tail]
      omega

theorem length_of_short {f : StreamFifo depth latency α} (h : f.items.length ≤ f.recent.count true + 1) :
    f.items.length ≤ latency + 1 := by
  have hle : f.recent.count true ≤ latency := List.count_le_length.trans (Nat.le_of_eq f.size)
  omega

/-! ## 2. Settling -/

/-- The edges until every item is old enough, if none comes in. -/
def settling (f : StreamFifo depth latency α) : Nat := latency - f.recent.idxOf true

theorem settling_le (f : StreamFifo depth latency α) : f.settling ≤ latency := Nat.sub_le _ _

theorem idxOf_take {l : List Bool} {k : Nat} (h : k ≤ l.length) :
    (l.take k).idxOf true = min k (l.idxOf true) := by
  induction l generalizing k with
  | nil =>
      obtain rfl : k = 0 := Nat.le_zero.mp h
      rfl
  | cons b l ih =>
      cases k with
      | zero => rw [List.take_zero, Nat.zero_min]; rfl
      | succ k =>
          rw [List.take_succ_cons]
          cases b with
          | true => rw [List.idxOf_cons_self, List.idxOf_cons_self, Nat.min_zero]
          | false =>
              rw [List.idxOf_cons_ne _ Bool.false_ne_true, List.idxOf_cons_ne _ Bool.false_ne_true,
                ih (Nat.le_of_succ_le_succ h), Nat.succ_min_succ]

/-- An edge at which nothing comes in brings it on. -/
theorem settling_edge (f : StreamFifo depth latency α) (ready : Bool) :
    (f.edge none ready).settling = f.settling - 1 := by
  have hrecent : (f.edge none ready).recent = (false :: f.recent).take latency := by
    show ((f.written none).isSome :: f.recent).take latency = _
    rw [Fifo.written_none]
    rfl
  have hlong : latency ≤ (false :: f.recent).length := f.size.ge.trans (Nat.le_succ _)
  rw [settling, hrecent, idxOf_take hlong, List.idxOf_cons_ne _ Bool.false_ne_true, settling]
  omega

theorem count_settled {f : StreamFifo depth latency α} (h : f.settling = 0) : f.recent.count true = 0 := by
  have hidx : f.recent.length ≤ f.recent.idxOf true := f.size.le.trans (Nat.sub_eq_zero_iff_le.mp h)
  exact List.count_eq_zero.mpr fun hmem => Nat.not_le_of_lt (List.idxOf_lt_length_iff.mpr hmem) hidx

/-- **A settled FIFO shows its first item.** -/
theorem head?_settled {f : StreamFifo depth latency α} (h : f.settling = 0) : f.head? = f.items.head? := by
  rw [head?, tvalid, count_settled h]
  cases hl : f.items with
  | nil => rw [Fifo.popped, hl]; rfl
  | cons x xs => rw [Fifo.popped, hl]; rfl

/-- It hands that out where it is read. -/
theorem edge_items_settled {f : StreamFifo depth latency α} (h : f.settling = 0) :
    (f.edge none true).items = f.items.tail := by
  have hedge := f.edge_items none true
  rw [popped_true, head?_settled h, Fifo.written_none] at hedge
  cases hl : f.items with
  | nil => exact edge_items_empty hl true
  | cons x xs =>
      rw [hl] at hedge
      simpa using hedge

/-- One that has been read at every edge is then empty. -/
theorem edge_items_drained {f : StreamFifo depth latency α} (h : f.settling = 0)
    (hshort : f.items.length ≤ f.recent.count true + 1) : (f.edge none true).items = [] := by
  rw [count_settled h] at hshort
  rw [edge_items_settled h]
  exact List.eq_nil_of_length_eq_zero (by rw [List.length_tail]; omega)

/-! ## 3. The FIFO as a part -/

section Part

variable {f : StreamFifo depth latency α}

/-- What is shown stays while it is not taken. -/
theorem head?_stays {x : α} (h : f.head? = some x) (w : Option α) : (f.edge w false).head? = some x := by
  have hitems := f.edge_items_hold w
  have hold : f.recent.count true < f.items.length := by
    have hv := f.tvalid_eq
    rw [h] at hv
    exact of_decide_eq_true hv
  have hvalid : (f.edge w false).tvalid = true := by
    have hcount := f.count_recentNext w
    refine decide_eq_true ?_
    show (f.recentNext w).count true < (f.edge w false).items.length
    rw [hitems, List.length_append]
    omega
  rw [head?, hvalid, Fifo.popped_true, hitems, List.head?_append, head_of_head? h]
  rfl

theorem part_items (f : StreamFifo depth latency α) (x : Option α) (r : Bool) :
    (if r then f.head? else none).toList ++ (f.edge x r).items =
      f.items ++ ((if f.tready then x else none).map id).toList := by
  have hedge := f.edge_items x r
  rw [popped_eq, Fifo.written] at hedge
  rw [Option.map_id]
  exact hedge

end Part

/-- The FIFO between its two handshakes; a reset empties it. -/
def part (depth latency : Nat) (α : Type) : Elastic (id : α → α) where
  State := StreamFifo depth latency α
  init := .empty
  out f _ := f.head?
  tready f _ := f.tready
  edge := .edge
  clear _ _ _ := .empty
  inv _ := True
  held f := f.items
  cap := depth
  inv_init := trivial
  inv_edge _ _ _ _ := trivial
  inv_clear _ _ _ _ := trivial
  held_init := rfl
  held_clear _ _ _ _ := rfl
  bound f _ := f.bound
  items f x r _ := part_items f x r
  stays _ x _ _ _ hy _ := head?_stays hy x

end StreamFifo
