/-
  File:      Frac/Lib/Latency.lean
  Subject:   A FIFO of fixed latency: an item is shown that many edges after the edge it came in at,
             and not before. Each item is kept with the edge it came in at.

  * `Latent.edge_items` -- **what leaves and what stays is what was there and what came in**;
  * `Latent.head_of_stamp` -- the head is shown once it is old enough.
-/
import Frac.Lib.Fifo

/-- At most `depth` items, oldest first, each with the edge it came in at; `now` counts the edges. -/
structure Latent (depth latency : Nat) (α : Type*) where
  now : Nat
  fifo : Fifo depth (Nat × α)

namespace Latent

variable {depth latency : Nat} {α : Type*}

def empty : Latent depth latency α := ⟨0, .empty⟩

/-- The write side has room. -/
def tready (f : Latent depth latency α) : Bool := f.fifo.tready

/-- The head is old enough. -/
def ripe (f : Latent depth latency α) : Bool :=
  f.fifo.items.head?.any fun x => decide (x.1 + latency ≤ f.now)

/-- The head, where it is shown, with the edge it came in at. -/
def head (f : Latent depth latency α) : Option (Nat × α) := f.fifo.popped f.ripe

/-- `tdata`, where `tvalid` is high. -/
def shown (f : Latent depth latency α) : Option α := f.head.map (·.2)

/-- The item an edge hands out. -/
def left (f : Latent depth latency α) (ready : Bool) : Option (Nat × α) :=
  if ready then f.head else none

/-- One edge: `w` is offered on the write side, `ready` is the reader's. -/
def edge (f : Latent depth latency α) (w : Option α) (ready : Bool) : Latent depth latency α where
  now := f.now + 1
  fifo := f.fifo.edge (w.map (f.now, ·)) (ready && f.ripe)

/-- **What leaves and what stays is what was there and what came in.** -/
theorem edge_items {f : Latent depth latency α} {w : Option α} (ready : Bool)
    (hw : w.isSome = true → f.tready = true) :
    (f.left ready).toList ++ (f.edge w ready).fifo.items =
      f.fifo.items ++ (w.map (f.now, ·)).toList := by
  have h := Fifo.edge_items f.fifo (w.map (f.now, ·)) (ready && f.ripe)
  have hin : f.fifo.written (w.map (f.now, ·)) = w.map (f.now, ·) :=
    Fifo.written_fits fun hs => hw (by rwa [Option.isSome_map] at hs)
  have hout : f.fifo.popped (ready && f.ripe) = f.left ready := by
    unfold left head
    cases ready <;> rfl
  rw [hin, hout] at h
  exact h

/-- What is shown is the head of the contents. -/
theorem head_eq {f : Latent depth latency α} {x : Nat × α} (h : f.head = some x) :
    f.fifo.items.head? = some x ∧ x.1 + latency ≤ f.now := by
  unfold head at h
  cases hr : f.ripe with
  | false => rw [hr] at h; cases h
  | true =>
      rw [hr, Fifo.popped_true] at h
      unfold ripe at hr
      rw [h] at hr
      exact ⟨h, of_decide_eq_true hr⟩

/-- **The head is shown once it is old enough.** -/
theorem head_of_stamp {f : Latent depth latency α} {x : Nat × α} {xs : List (Nat × α)}
    (h : f.fifo.items = x :: xs) (hx : x.1 + latency ≤ f.now) : f.head = some x := by
  have hr : f.ripe = true := by
    unfold ripe
    rw [h]
    exact decide_eq_true hx
  rw [head, hr, Fifo.popped_true, h]
  rfl

end Latent
