/-
  File:      Frac/Lib/Elastic.lean
  Subject:   Elastic stream parts: one input and one output, each with a valid/ready handshake, and
             whatever lies between. What a part shows may depend on what it is offered at the same
             edge, and its readiness on the sink's, so parts can be put in series in any number
             without a combinational loop. Nothing here names a circuit.

  * `Elastic` -- a part, with what it keeps of the items under way and the laws it obeys: nothing
    is lost, added or reordered, and what is shown stays until it is taken;
  * `Elastic.series`, `Elastic.chain` -- **parts in series are a part**;
  * `Elastic.tally_run` -- **over every run, resets included**: what was accepted since the last
    reset is what was sent and what is held;
  * `Elastic.out_stall` -- what is shown stays through all the edges at which it is not taken;
  * `Elastic.matches_run` -- two parts that answer alike accept and send the same, in every run.
-/
import Frac.Lib.Clocked

/-! ## 1. A part -/

/-- A part that hands `f x` on for every item `x` it accepts, and holds at most `cap` of them. -/
structure Elastic {α β : Type} (f : α → β) where
  State : Type
  init : State
  /-- `m_axis_tdata` where `m_axis_tvalid` is high, by what is offered. -/
  out : State → Option α → Option β
  /-- `s_axis_tready`, by the sink's. -/
  tready : State → Bool → Bool
  edge : State → Option α → Bool → State
  /-- The edge at which the reset is high. -/
  clear : State → Option α → Bool → State
  inv : State → Prop
  /-- What is under way, oldest first. -/
  held : State → List β
  cap : Nat
  inv_init : inv init
  inv_edge : ∀ s x r, inv s → inv (edge s x r)
  inv_clear : ∀ s x r, inv s → inv (clear s x r)
  held_init : held init = []
  held_clear : ∀ s x r, inv s → held (clear s x r) = []
  bound : ∀ s, inv s → (held s).length ≤ cap
  /-- **What leaves and what stays is what was there and what came in.** -/
  items : ∀ s x r, inv s → (if r then out s x else none).toList ++ held (edge s x r) =
    held s ++ ((if tready s r then x else none).map f).toList
  /-- **What is shown stays**, as long as the source keeps what it offers too. -/
  stays : ∀ s x x' y, inv s → out s x = some y → (tready s false = false → x.isSome = true → x' = x) →
    out (edge s x false) x' = some y

namespace Elastic

variable {α β γ : Type} {f : α → β} {g : β → γ}

/-- The item an edge takes in. -/
def accepted (p : Elastic f) (s : p.State) (x : Option α) (r : Bool) : Option α :=
  if p.tready s r then x else none

/-- The item an edge hands out. -/
def sent (p : Elastic f) (s : p.State) (x : Option α) (r : Bool) : Option β :=
  if r then p.out s x else none

theorem edge_items (p : Elastic f) {s : p.State} (h : p.inv s) (x : Option α) (r : Bool) :
    (p.sent s x r).toList ++ p.held (p.edge s x r) = p.held s ++ ((p.accepted s x r).map f).toList :=
  p.items s x r h

/-! ## 2. Parts in series -/

theorem through_items (f : α → β) (x : Option α) (r : Bool) :
    (if r then x.map f else none).toList ++ [] = [] ++ ((if r then x else none).map f).toList := by
  cases r <;> simp

theorem through_stays {f : α → β} {x x' : Option α} {y : β} (hy : x.map f = some y)
    (hkeep : false = false → x.isSome = true → x' = x) : x'.map f = some y := by
  have hsome : x.isSome = true := by
    rw [← Option.isSome_map (f := f), hy]
    rfl
  rw [hkeep rfl hsome]
  exact hy

/-- Nothing between input and output but `f`. -/
def through (f : α → β) : Elastic f where
  State := Unit
  init := ()
  out _ x := x.map f
  tready _ r := r
  edge _ _ _ := ()
  clear _ _ _ := ()
  inv _ := True
  held _ := []
  cap := 0
  inv_init := trivial
  inv_edge _ _ _ _ := trivial
  inv_clear _ _ _ _ := trivial
  held_init := rfl
  held_clear _ _ _ _ := rfl
  bound _ _ := Nat.le_refl 0
  items _ x r _ := through_items f x r
  stays _ _ _ _ _ hy hkeep := through_stays hy hkeep

section Series

variable (p : Elastic f) (q : Elastic g)

theorem series_items (s : p.State) (t : q.State) (x : Option α) (r : Bool) (hs : p.inv s) (ht : q.inv t) :
    (if r then q.out t (p.out s x) else none).toList ++
        (q.held (q.edge t (p.out s x) r) ++ (p.held (p.edge s x (q.tready t r))).map g) =
      q.held t ++ (p.held s).map g ++
        ((if p.tready s (q.tready t r) then x else none).map (g ∘ f)).toList := by
  have hp := p.items s x (q.tready t r) hs
  have hq := q.items t (p.out s x) r ht
  -- what the second part takes in is what the first hands out
  have hmid := congrArg (List.map g) hp
  rw [List.map_append, List.map_append, ← Option.toList_map, ← Option.toList_map, Option.map_map] at hmid
  rw [← List.append_assoc, hq, List.append_assoc, hmid, ← List.append_assoc]

theorem series_stays (s : p.State) (t : q.State) (x x' : Option α) (y : γ) (hs : p.inv s) (ht : q.inv t)
    (hy : q.out t (p.out s x) = some y)
    (hkeep : p.tready s (q.tready t false) = false → x.isSome = true → x' = x) :
    q.out (q.edge t (p.out s x) false) (p.out (p.edge s x (q.tready t false)) x') = some y := by
  refine q.stays t _ _ y ht hy fun hready hsome => ?_
  obtain ⟨b, hb⟩ := Option.isSome_iff_exists.mp hsome
  rw [hready] at hkeep ⊢
  rw [hb]
  exact p.stays s x x' b hs hb hkeep

theorem series_bound (s : p.State) (t : q.State) (hs : p.inv s) (ht : q.inv t) :
    (q.held t ++ (p.held s).map g).length ≤ p.cap + q.cap := by
  have hp := p.bound s hs
  have hq := q.bound t ht
  rw [List.length_append, List.length_map]
  omega

theorem series_init : q.held q.init ++ (p.held p.init).map g = [] := by
  rw [p.held_init, q.held_init]
  rfl

theorem series_clear (s : p.State) (t : q.State) (x : Option α) (r : Bool) (hs : p.inv s) (ht : q.inv t) :
    q.held (q.clear t (p.out s x) r) ++ (p.held (p.clear s x (q.tready t r))).map g = [] := by
  rw [p.held_clear _ _ _ hs, q.held_clear _ _ _ ht]
  rfl

/-- **Two parts in series are a part.** -/
def series : Elastic (g ∘ f) where
  State := p.State × q.State
  init := (p.init, q.init)
  out s x := q.out s.2 (p.out s.1 x)
  tready s r := p.tready s.1 (q.tready s.2 r)
  edge s x r := (p.edge s.1 x (q.tready s.2 r), q.edge s.2 (p.out s.1 x) r)
  clear s x r := (p.clear s.1 x (q.tready s.2 r), q.clear s.2 (p.out s.1 x) r)
  inv s := p.inv s.1 ∧ q.inv s.2
  held s := q.held s.2 ++ (p.held s.1).map g
  cap := p.cap + q.cap
  inv_init := ⟨p.inv_init, q.inv_init⟩
  inv_edge _ _ _ h := ⟨p.inv_edge _ _ _ h.1, q.inv_edge _ _ _ h.2⟩
  inv_clear _ _ _ h := ⟨p.inv_clear _ _ _ h.1, q.inv_clear _ _ _ h.2⟩
  held_init := series_init p q
  held_clear s x r h := series_clear p q s.1 s.2 x r h.1 h.2
  bound s h := series_bound p q s.1 s.2 h.1 h.2
  items s x r h := series_items p q s.1 s.2 x r h.1 h.2
  stays s x x' y h hy hkeep := series_stays p q s.1 s.2 x x' y h.1 h.2 hy hkeep

end Series

/-- `n` copies of a part in series. -/
def chain {f : α → α} (p : Elastic f) : (n : Nat) → Elastic (f^[n])
  | 0 => through id
  | n + 1 => series p (chain p n)

theorem chain_cap {f : α → α} (p : Elastic f) (n : Nat) : (chain p n).cap = n * p.cap := by
  induction n with
  | zero => exact (Nat.zero_mul p.cap).symm
  | succ n ih =>
      show p.cap + (chain p n).cap = _
      rw [ih, Nat.succ_mul, Nat.add_comm]

/-! ## 3. Runs -/

/-- What the surroundings do at an edge. -/
structure In (α : Type) where
  rst : Bool
  offer : Option α
  ready : Bool

/-- A part with what has crossed its two ports since the last reset. -/
structure Tally (p : Elastic f) where
  state : p.State
  accepted : List α
  sent : List β

namespace Tally

variable {p : Elastic f}

def init (p : Elastic f) : Tally p := ⟨p.init, [], []⟩

def clock (s : Tally p) (i : In α) : Tally p :=
  if i.rst then ⟨p.clear s.state i.offer i.ready, [], []⟩
  else
    { state := p.edge s.state i.offer i.ready
      accepted := s.accepted ++ (p.accepted s.state i.offer i.ready).toList
      sent := s.sent ++ (p.sent s.state i.offer i.ready).toList }

/-- What was accepted is what was sent and what is held. -/
def Balanced (s : Tally p) : Prop := p.inv s.state ∧ s.accepted.map f = s.sent ++ p.held s.state

theorem balanced_init (p : Elastic f) : (init p).Balanced := ⟨p.inv_init, p.held_init.symm⟩

theorem balanced_clock {s : Tally p} (h : s.Balanced) (i : In α) : (s.clock i).Balanced := by
  unfold clock
  cases i.rst with
  | true =>
      refine ⟨p.inv_clear _ _ _ h.1, ?_⟩
      exact (p.held_clear _ _ _ h.1).symm
  | false =>
      refine ⟨p.inv_edge _ _ _ h.1, ?_⟩
      have hitems := p.edge_items h.1 i.offer i.ready
      simp only [Bool.false_eq_true, if_false, List.map_append, Option.toList_map] at hitems ⊢
      rw [h.2, List.append_assoc, ← hitems, List.append_assoc]

end Tally

/-- **Over every run**, resets at any edges included: what was accepted since the last reset is what
    was sent since then and what is held, which is never more than the part holds. -/
theorem tally_run (p : Elastic f) (is : List (In α)) :
    (Clocked.run Tally.clock (Tally.init p) is).Balanced ∧
      (p.held (Clocked.run Tally.clock (Tally.init p) is).state).length ≤ p.cap := by
  have h := Clocked.run_all (P := Tally.Balanced) (fun _ i h => Tally.balanced_clock h i) (Tally.balanced_init p) is
  exact ⟨h, p.bound _ h.1⟩

/-- The edges at which the sink is not ready, by what is offered after each. -/
def stall (p : Elastic f) : p.State → Option α → List (Option α) → p.State × Option α
  | s, x, [] => (s, x)
  | s, x, x' :: xs => p.stall (p.edge s x false) x' xs

/-- The source keeps what it offers until it is accepted. -/
def Patient (p : Elastic f) : p.State → Option α → List (Option α) → Prop
  | _, _, [] => True
  | s, x, x' :: xs =>
      (p.tready s false = false → x.isSome = true → x' = x) ∧ p.Patient (p.edge s x false) x' xs

/-- **What is shown stays** through all the edges at which it is not taken. -/
theorem out_stall (p : Elastic f) {s : p.State} {x : Option α} {y : β} (h : p.inv s)
    (hy : p.out s x = some y) (xs : List (Option α)) (hkeep : p.Patient s x xs) :
    p.out (p.stall s x xs).1 (p.stall s x xs).2 = some y := by
  induction xs generalizing s x with
  | nil => exact hy
  | cons x' xs ih =>
      exact ih (p.inv_edge s x false h) (p.stays s x x' y h hy hkeep.1) hkeep.2

/-- The same for a part that shows only what it holds, whatever the source does. -/
theorem out_stall_held {p : Elastic f} (hout : ∀ s x, p.out s x = p.out s none) {s : p.State} {y : β}
    (h : p.inv s) (hy : p.out s none = some y) (x : Option α) (xs : List (Option α)) :
    p.out (p.stall s x xs).1 none = some y := by
  induction xs generalizing s x with
  | nil => exact hy
  | cons x' xs ih =>
      have hstay := p.stays s x x y h ((hout s x).trans hy) fun _ _ => rfl
      exact ih (p.inv_edge s x false h) ((hout _ x).symm.trans hstay) x'

/-! ## 4. Two parts beside each other -/

/-- **The parts answer alike**: from related states they show and take the same, and every edge keeps
    the states related. -/
structure Matches (p q : Elastic f) (R : p.State → q.State → Prop) : Prop where
  init : R p.init q.init
  out : ∀ s t x, R s t → p.out s x = q.out t x
  tready : ∀ s t r, R s t → p.tready s r = q.tready t r
  edge : ∀ s t x r, R s t → R (p.edge s x r) (q.edge t x r)
  clear : ∀ s t x r, R s t → R (p.clear s x r) (q.clear t x r)

/-- **Over every run** they accept and send the same. -/
theorem matches_run {p q : Elastic f} {R : p.State → q.State → Prop} (h : Matches p q R) (is : List (In α)) :
    let s := Clocked.run Tally.clock (Tally.init p) is
    let t := Clocked.run Tally.clock (Tally.init q) is
    R s.state t.state ∧ s.accepted = t.accepted ∧ s.sent = t.sent := by
  refine Clocked.run_related (R := fun (s : Tally p) (t : Tally q) =>
    R s.state t.state ∧ s.accepted = t.accepted ∧ s.sent = t.sent) ?_ ⟨h.init, rfl, rfl⟩ is
  intro s t i ⟨hstate, haccepted, hsent⟩
  unfold Tally.clock
  cases i.rst with
  | true => exact ⟨h.clear _ _ _ _ hstate, rfl, rfl⟩
  | false =>
      refine ⟨h.edge _ _ _ _ hstate, ?_, ?_⟩
      · show s.accepted ++ (p.accepted s.state i.offer i.ready).toList = _
        rw [accepted, h.tready _ _ i.ready hstate, haccepted]
        rfl
      · show s.sent ++ (p.sent s.state i.offer i.ready).toList = _
        rw [sent, h.out _ _ i.offer hstate, hsent]
        rfl

end Elastic
