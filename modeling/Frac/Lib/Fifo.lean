/-
  File:      Frac/Lib/Fifo.lean
  Subject:   The stream parts of a clocked design that hold data: a bounded FIFO with a
             valid/ready handshake on both sides, and a fixed-length delay line. Both sides of an
             edge read the contents as they were before it.

  * `Fifo.edge_items` -- **what leaves and what stays is what was there and what came in**;
    `Fifo.slowEdge_items` -- the same for a FIFO of any latency;
  * `Delay.shift_items` -- the same for the delay line, which never refuses;
  * `firstFin`, `lastFin` -- a priority search over `Fin n`, as a loop with a flag makes it.
-/
import Mathlib

/-! ## 1. A bounded FIFO -/

/-- At most `depth` items, oldest first. -/
structure Fifo (depth : Nat) (α : Type*) where
  items : List α
  bound : items.length ≤ depth

namespace Fifo

variable {depth : Nat} {α : Type*}

def empty : Fifo depth α := ⟨[], Nat.zero_le _⟩

/-- The write side has room. -/
def tready (f : Fifo depth α) : Bool := decide (f.items.length < depth)

/-- The read side has data. -/
def tvalid (f : Fifo depth α) : Bool := !f.items.isEmpty

/-- The item the edge takes in, when `w` is offered. -/
def written (f : Fifo depth α) (w : Option α) : Option α := if f.tready then w else none

/-- The item the edge hands out, when the reader is `ready`. -/
def popped (f : Fifo depth α) (ready : Bool) : Option α := if ready then f.items.head? else none

theorem length_written (f : Fifo depth α) (w : Option α) :
    f.items.length + (f.written w).toList.length ≤ depth := by
  have hb := f.bound
  unfold written
  cases h : f.tready with
  | false => simpa using hb
  | true =>
      have hlt : f.items.length < depth := of_decide_eq_true h
      cases w with
      | none => simpa using hb
      | some x => exact hlt

/-- One edge: `w` is offered on the write side, `ready` is the reader's. -/
def edge (f : Fifo depth α) (w : Option α) (ready : Bool) : Fifo depth α where
  items := (if ready then f.items.tail else f.items) ++ (f.written w).toList
  bound := by
    have hw := length_written f w
    have ht : (if ready then f.items.tail else f.items).length ≤ f.items.length := by
      split <;> simp
    rw [List.length_append]
    omega

theorem tready_iff {f : Fifo depth α} : f.tready = true ↔ f.items.length < depth := by
  simp [tready]

@[simp] theorem written_none (f : Fifo depth α) : f.written none = none := by
  simp [written]

theorem written_some {f : Fifo depth α} (h : f.tready = true) (x : α) :
    f.written (some x) = some x := if_pos h

/-- A FIFO that has room for whatever is offered takes it in. -/
theorem written_fits {f : Fifo depth α} {w : Option α} (h : w.isSome = true → f.tready = true) :
    f.written w = w := by
  cases w with
  | none => exact written_none f
  | some x => exact written_some (h rfl) x

@[simp] theorem popped_false (f : Fifo depth α) : f.popped false = none := rfl

theorem popped_true (f : Fifo depth α) : f.popped true = f.items.head? := rfl

/-- **What leaves and what stays is what was there and what came in.** -/
theorem edge_items (f : Fifo depth α) (w : Option α) (ready : Bool) :
    (f.popped ready).toList ++ (f.edge w ready).items = f.items ++ (f.written w).toList := by
  cases ready with
  | false => simp [edge]
  | true =>
      rw [popped_true]
      show f.items.head?.toList ++ (f.items.tail ++ _) = _
      cases f.items <;> simp

theorem edge_items_hold (f : Fifo depth α) (w : Option α) :
    (f.edge w false).items = f.items ++ (f.written w).toList := by
  simp [edge]

/-- An edge that hands nothing out and has room takes in what is offered. -/
theorem edge_items_fit {f : Fifo depth α} {w : Option α} {ready : Bool}
    (hfit : f.items.length + w.toList.length ≤ depth) (hidle : ready = true → f.items = []) :
    (f.edge w ready).items = f.items ++ w.toList := by
  have hw : f.written w = w := by
    refine written_fits fun h => tready_iff.mpr ?_
    obtain ⟨x, rfl⟩ := Option.isSome_iff_exists.mp h
    exact hfit
  have hout : f.popped ready = none := by
    cases ready with
    | false => rfl
    | true => rw [popped_true, hidle rfl]; rfl
  have h := edge_items f w ready
  rwa [hout, hw] at h

/-- Two FIFOs that are offered the same make the same edges. -/
theorem edge_items_map {β : Type*} {g : α → β} {f : Fifo depth α} {f' : Fifo depth β}
    (h : f.items.map g = f'.items) {w : Option α} {w' : Option β} (hw : w.map g = w') (ready : Bool) :
    (f.edge w ready).items.map g = (f'.edge w' ready).items := by
  have hready : f'.tready = f.tready := by rw [tready, tready, ← h, List.length_map]
  have hwritten : (f.written w).map g = f'.written w' := by
    rw [written, written, hready, ← hw]
    split <;> rfl
  have hitems : (f'.edge w' ready).items =
      (if ready then f'.items.tail else f'.items) ++ (f'.written w').toList := rfl
  rw [hitems, edge, List.map_append, ← h, ← hwritten, Option.toList_map]
  cases ready with
  | false => rfl
  | true => simp

theorem edge_items_empty {f : Fifo depth α} (h : f.items = []) (ready : Bool) :
    (f.edge none ready).items = [] := by
  rw [edge_items_fit (by rw [h]; exact Nat.zero_le _) fun _ => h, h]
  rfl

/-- An item of the next contents was there or came in. -/
theorem mem_edge {f : Fifo depth α} {w : Option α} {ready : Bool} {x : α}
    (h : x ∈ (f.edge w ready).items) : x ∈ f.items ∨ w = some x := by
  have hx : x ∈ f.items ++ (f.written w).toList := by
    rw [← edge_items f w ready]
    exact List.mem_append_right _ h
  rcases List.mem_append.mp hx with h1 | h1
  · exact Or.inl h1
  · refine Or.inr ?_
    unfold written at h1
    split at h1
    · exact Option.mem_toList.mp h1
    · cases h1

theorem mem_of_popped {f : Fifo depth α} {ready : Bool} {x : α} (h : f.popped ready = some x) :
    x ∈ f.items := by
  cases ready with
  | false => cases h
  | true => exact List.mem_of_mem_head? h

/-! A FIFO of any latency: what its two sides let through at an edge is up to its pins. -/

/-- Whether the head is shown, and whether there is room, as far as the contents allow it. -/
structure Pins where
  readable : Bool
  writable : Bool

/-- The head, where it is shown. -/
def shown (f : Fifo depth α) (p : Pins) : Option α := f.popped p.readable

/-- The write side is ready. -/
def room (f : Fifo depth α) (p : Pins) : Bool := p.writable && f.tready

/-- The item an edge takes in. -/
def entered (f : Fifo depth α) (p : Pins) (w : Option α) : Option α := if f.room p then w else none

/-- The item an edge hands out. -/
def left (f : Fifo depth α) (p : Pins) (ready : Bool) : Option α := if ready then f.shown p else none

/-- What is handed out is the head. -/
theorem head_of_left {f : Fifo depth α} {p : Pins} {ready : Bool} {x : α}
    (h : f.left p ready = some x) : f.items.head? = some x := by
  unfold left shown popped at h
  cases ready with
  | false => cases h
  | true =>
      cases hr : p.readable with
      | false => rw [hr] at h; cases h
      | true => rw [hr] at h; exact h

/-- One edge of a FIFO of any latency. -/
def slowEdge (f : Fifo depth α) (p : Pins) (w : Option α) (ready : Bool) : Fifo depth α :=
  f.edge (f.entered p w) (ready && p.readable)

/-- **What leaves and what stays is what was there and what came in.** -/
theorem slowEdge_items (f : Fifo depth α) (p : Pins) (w : Option α) (ready : Bool) :
    (f.left p ready).toList ++ (f.slowEdge p w ready).items = f.items ++ (f.entered p w).toList := by
  have hedge := edge_items f (f.entered p w) (ready && p.readable)
  have hin : f.written (f.entered p w) = f.entered p w := by
    unfold written entered room
    cases p.writable <;> cases f.tready <;> rfl
  have hout : f.popped (ready && p.readable) = f.left p ready := by
    unfold left shown
    cases ready <;> rfl
  rw [hin, hout] at hedge
  exact hedge

end Fifo

/-! What a source offers from the head of its list. -/

/-- A head that is taken leaves the list. -/
theorem List.toList_taken {α : Type*} {xs : List α} {x : Option α} (h : x = xs.head? ∨ x = none) :
    x.toList ++ (if x.isSome then xs.tail else xs) = xs := by
  rcases h with rfl | rfl
  · cases xs <;> rfl
  · rfl

/-- An offer that is made or not, and taken or not. -/
theorem Option.offer_cases {α : Type*} (p q : Bool) (x : Option α) :
    (if p then (if q then x else none) else none) = x ∨
      (if p then (if q then x else none) else none) = none := by
  cases p <;> cases q <;> simp

/-! ## 2. A delay line -/

/-- A delay of `len` edges, newest stage first; an empty stage is a bubble. -/
structure Delay (len : Nat) (α : Type*) where
  stages : List (Option α)
  size : stages.length = len

namespace Delay

variable {len : Nat} {α : Type*}

def empty : Delay len α := ⟨List.replicate len none, List.length_replicate⟩

/-- The stage that leaves at the next edge. -/
def last (d : Delay len α) : Option α := d.stages.getLast?.join

/-- One edge: every stage moves on, `x` enters. -/
def shift (d : Delay len α) (x : Option α) : Delay len α where
  stages := (x :: d.stages).dropLast
  size := by rw [List.length_dropLast]; exact d.size

/-- What is under way, oldest first. -/
def items (d : Delay len α) : List α := d.stages.reverse.filterMap id

theorem empty_items : (empty : Delay len α).items = [] := by
  simp [items, empty]

/-- **Nothing is lost under way** in a delay line of at least one stage. -/
theorem shift_items (d : Delay len α) (hlen : 0 < len) (x : Option α) :
    d.last.toList ++ (d.shift x).items = d.items ++ x.toList := by
  have hne : d.stages ≠ [] := by
    intro e
    have := d.size
    rw [e] at this
    simp at this
    omega
  have hsplit : d.stages = d.stages.dropLast ++ [d.stages.getLast hne] :=
    (List.dropLast_append_getLast hne).symm
  have hlast : d.last = d.stages.getLast hne := by
    rw [last, List.getLast?_eq_some_getLast hne]
    rfl
  have hdrop : (x :: d.stages).dropLast = x :: d.stages.dropLast := List.dropLast_cons_of_ne_nil hne
  have hrev : d.stages.reverse = d.stages.getLast hne :: d.stages.dropLast.reverse := by
    conv_lhs => rw [hsplit]
    simp
  show d.last.toList ++ ((x :: d.stages).dropLast.reverse).filterMap id = _
  rw [items, hlast, hdrop, List.reverse_cons, hrev, List.filterMap_append]
  cases d.stages.getLast hne <;> cases x <;> simp

theorem mem_of_last {d : Delay len α} {x : α} (h : d.last = some x) : x ∈ d.items := by
  unfold last at h
  have hmem : some x ∈ d.stages := by
    cases hl : d.stages.getLast? with
    | none => rw [hl] at h; cases h
    | some o =>
        rw [hl] at h
        exact List.mem_of_getLast? (hl.trans (congrArg some h))
  exact List.mem_filterMap.mpr ⟨some x, List.mem_reverse.mpr hmem, rfl⟩

theorem mem_shift {d : Delay len α} {y : Option α} {x : α} (h : x ∈ (d.shift y).items) :
    x ∈ d.items ∨ y = some x := by
  obtain ⟨o, ho, rfl⟩ := List.mem_filterMap.mp h
  have hmem : some x ∈ y :: d.stages := List.dropLast_subset _ (List.mem_reverse.mp ho)
  rcases List.mem_cons.mp hmem with e | hm
  · exact Or.inr e.symm
  · exact Or.inl (List.mem_filterMap.mpr ⟨some x, List.mem_reverse.mpr hm, rfl⟩)

/-- What is under way leaves within `m` edges: it is in the last `m` stages. -/
def Within (d : Delay len α) (m : Nat) : Prop := ∀ o ∈ d.stages.take (len - m), o = none

theorem within_of_le (d : Delay len α) {m : Nat} (h : len ≤ m) : d.Within m := by
  intro o ho
  rw [Nat.sub_eq_zero_of_le h] at ho
  cases ho

/-- An edge at which nothing enters brings what is under way one stage on. -/
theorem within_shift {d : Delay len α} {m : Nat} (h : d.Within m) :
    (d.shift none).Within (m - 1) := by
  intro o ho
  have hpre : ((none :: d.stages).dropLast.take (len - (m - 1))) <+:
      (none :: d.stages).take (len - m + 1) := by
    rw [List.dropLast_eq_take, List.take_take]
    exact List.take_prefix_take_left (by omega)
  rcases List.mem_cons.mp (hpre.subset ho) with e | ho
  · exact e
  · exact h o ho

theorem items_within_zero {d : Delay len α} (h : d.Within 0) : d.items = [] := by
  refine List.filterMap_eq_nil_iff.mpr fun o ho => ?_
  refine h o ?_
  rw [Nat.sub_zero, List.take_of_length_le (Nat.le_of_eq d.size)]
  exact List.mem_reverse.mp ho

theorem within_zero_iff {d : Delay len α} : d.Within 0 ↔ d.items = [] := by
  refine ⟨items_within_zero, fun h o ho => ?_⟩
  have hmem : o ∈ d.stages := List.mem_of_mem_take ho
  exact List.filterMap_eq_nil_iff.mp h o (List.mem_reverse.mpr hmem)

theorem last_within_zero {d : Delay len α} (h : d.Within 0) : d.last = none := by
  refine Option.eq_none_iff_forall_ne_some.mpr fun x hx => ?_
  have hmem := mem_of_last hx
  rw [items_within_zero h] at hmem
  cases hmem

theorem within_mono {d : Delay len α} {m m' : Nat} (h : d.Within m) (hle : m ≤ m') : d.Within m' := by
  intro o ho
  exact h o ((List.take_prefix_take_left (by omega)).subset ho)

/-- **Delay lines in series** drain one after the other: what enters the second comes from the first. -/
theorem within_series {len' : Nat} {β : Type*} {d : Delay len α} {e : Delay len' β} {m : Nat} {x : Option β}
    (hd : d.Within (m - len')) (he : e.Within m) (hx : d.last = none → x = none) :
    (e.shift x).Within (m - 1) := by
  by_cases hm : len' ≤ m - 1
  · exact within_of_le _ hm
  · rw [Nat.sub_eq_zero_of_le (by omega)] at hd
    rw [hx (last_within_zero hd)]
    exact within_shift he

end Delay

/-! ## 3. Priority search -/

section Search

variable {n : Nat} {p : Fin n → Bool} {k : Fin n}

/-- The lowest index with `p`: a loop that stops at its first hit. -/
def firstFin (p : Fin n → Bool) : Option (Fin n) := (List.finRange n).find? p

/-- The highest index with `p`: a loop whose every hit overwrites the one before. -/
def lastFin (p : Fin n → Bool) : Option (Fin n) := (List.finRange n).reverse.find? p

theorem firstFin_some (h : firstFin p = some k) : p k = true := List.find?_some h

theorem firstFin_none (h : firstFin p = none) (k : Fin n) : p k = false := by
  have := List.find?_eq_none.mp h k (List.mem_finRange k)
  simpa using this

theorem firstFin_eq_none (h : ∀ k, p k = false) : firstFin p = none :=
  List.find?_eq_none.mpr fun k _ => by simp [h k]

/-- The search starts at index zero. -/
theorem firstFin_zero (hk : k.val = 0) (h : p k = true) : firstFin p = some k := by
  cases n with
  | zero => exact k.elim0
  | succ n =>
      have hk0 : k = 0 := Fin.ext hk
      subst hk0
      rw [firstFin, List.finRange_succ, List.find?_cons_of_pos h]

theorem firstFin_isSome (h : p k = true) : ∃ j, firstFin p = some j := by
  cases hf : firstFin p with
  | some j => exact ⟨j, rfl⟩
  | none => rw [firstFin_none hf k] at h; cases h

theorem lastFin_some (h : lastFin p = some k) : p k = true := List.find?_some h

theorem lastFin_none (h : lastFin p = none) (k : Fin n) : p k = false := by
  have := List.find?_eq_none.mp h k (List.mem_reverse.mpr (List.mem_finRange k))
  simpa using this

end Search
