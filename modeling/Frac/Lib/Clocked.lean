/-
  File:      Frac/Lib/Clocked.lean
  Subject:   Synchronous machines: one clock edge is one step. Runs, reachable states under a
             guard on the steps, and the invariant rules every development over such a machine
             needs. Nothing here names a circuit.

  * `run` -- the state after a list of edges (executable);
  * `Reachable step ok init` -- the states reached from `init` by edges that meet the guard `ok`;
    the guard holds what is assumed of the surroundings (or of the run) at one edge;
  * `Reachable.invariant` -- what holds at the start and survives every guarded edge holds in
    every reachable state;
  * `run_all`, `run_meets` -- the same for runs; `count_le_rank` -- **the rank rule**;
  * `run_counted`, `run_countdown` -- what drops at every counted edge of a run has dropped by their
    number (`count`);
  * `driven` -- the inputs of a run whose surroundings answer from the state;
  * `log` -- what a run shows of an observation at each edge; `run_log` -- the invariant rule for
    the state together with what has been shown so far;
  * `Reachable.of_run` -- a concrete guarded run reaches its end state (for witnesses);
  * `Reachable.mono`, `Reachable.trans` -- a weaker guard, and one stretch of a run after another.
-/
import Mathlib

namespace Clocked

variable {σ ι : Type*}

/-- The state after the edges `is`, first edge first. -/
def run (step : σ → ι → σ) (s : σ) (is : List ι) : σ := is.foldl step s

@[simp] theorem run_nil (step : σ → ι → σ) (s : σ) : run step s [] = s := rfl

@[simp] theorem run_cons (step : σ → ι → σ) (s : σ) (i : ι) (is : List ι) :
    run step s (i :: is) = run step (step s i) is := rfl

theorem run_append (step : σ → ι → σ) (s : σ) (is js : List ι) :
    run step s (is ++ js) = run step (run step s is) js :=
  List.foldl_append ..

/-- Every edge of the run meets the guard in the state it is taken from. -/
def Meets (step : σ → ι → σ) (ok : σ → ι → Prop) : σ → List ι → Prop
  | _, [] => True
  | s, i :: is => ok s i ∧ Meets step ok (step s i) is

instance decidableMeets (step : σ → ι → σ) (ok : σ → ι → Prop) [∀ s i, Decidable (ok s i)] :
    ∀ (s : σ) (is : List ι), Decidable (Meets step ok s is)
  | _, [] => inferInstanceAs (Decidable True)
  | s, i :: is =>
    haveI := decidableMeets step ok (step s i) is
    inferInstanceAs (Decidable (ok s i ∧ Meets step ok (step s i) is))

theorem meets_append {step : σ → ι → σ} {ok : σ → ι → Prop} (s : σ) (is js : List ι) :
    Meets step ok s (is ++ js) ↔ Meets step ok s is ∧ Meets step ok (run step s is) js := by
  induction is generalizing s with
  | nil => simp [Meets]
  | cons i is ih =>
      rw [List.cons_append, Meets, Meets, ih, run_cons, and_assoc]

theorem Meets.of_forall {step : σ → ι → σ} {ok : σ → ι → Prop} (h : ∀ s i, ok s i) :
    ∀ (s : σ) (is : List ι), Meets step ok s is
  | _, [] => trivial
  | s, i :: is => ⟨h s i, Meets.of_forall h (step s i) is⟩

/-- A guard on the inputs alone. -/
theorem Meets.of_mem {step : σ → ι → σ} {Q : ι → Prop} :
    ∀ {s : σ} {is : List ι}, (∀ i ∈ is, Q i) → Meets step (fun _ i => Q i) s is
  | _, [], _ => trivial
  | _, i :: _, h =>
    ⟨h i (List.mem_cons_self ..), Meets.of_mem fun j hj => h j (List.mem_cons_of_mem i hj)⟩

/-- And back: such a guard holds of every input of the run. -/
theorem Meets.mem {step : σ → ι → σ} {Q : ι → Prop} :
    ∀ {s : σ} {is : List ι}, Meets step (fun _ i => Q i) s is → ∀ i ∈ is, Q i
  | _, _ :: _, hm, i, hi =>
    (List.mem_cons.mp hi).elim (fun e => e ▸ hm.1) fun h => Meets.mem hm.2 i h

theorem Meets.mono {step : σ → ι → σ} {ok ok' : σ → ι → Prop} (h : ∀ s i, ok s i → ok' s i) :
    ∀ {s : σ} {is : List ι}, Meets step ok s is → Meets step ok' s is
  | _, [], _ => trivial
  | s, i :: _, hm => ⟨h s i hm.1, Meets.mono h hm.2⟩

theorem Meets.and {step : σ → ι → σ} {ok ok' : σ → ι → Prop} :
    ∀ {s : σ} {is : List ι}, Meets step ok s is → Meets step ok' s is →
      Meets step (fun s i => ok s i ∧ ok' s i) s is
  | _, [], _, _ => trivial
  | _, _ :: _, h, h' => ⟨⟨h.1, h'.1⟩, h.2.and h'.2⟩

/-- What survives every guarded edge survives a guarded run. -/
theorem run_meets {step : σ → ι → σ} {ok : σ → ι → Prop} {P : σ → Prop}
    (hstep : ∀ s i, P s → ok s i → P (step s i)) {s : σ} (h : P s) (is : List ι)
    (hm : Meets step ok s is) : P (run step s is) := by
  induction is generalizing s with
  | nil => exact h
  | cons i is ih => exact ih (hstep s i h hm.1) hm.2

/-- What survives every edge survives every run. -/
theorem run_all {step : σ → ι → σ} {P : σ → Prop} (hstep : ∀ s i, P s → P (step s i)) {s : σ} (h : P s)
    (is : List ι) : P (run step s is) := by
  induction is generalizing s with
  | nil => exact h
  | cons i is ih => exact ih (hstep s i h)

/-- Two systems on the same inputs stay related. -/
theorem run_related {τ : Type*} {step : σ → ι → σ} {step' : τ → ι → τ} {R : σ → τ → Prop}
    (hstep : ∀ s t i, R s t → R (step s i) (step' t i)) {s : σ} {t : τ} (h : R s t) (is : List ι) :
    R (run step s is) (run step' t is) := by
  induction is generalizing s t with
  | nil => exact h
  | cons i is ih => exact ih (hstep s t i h)

/-- The edges of a run that count, each in the state it is taken from. -/
def count (step : σ → ι → σ) (w : σ → ι → Bool) : σ → List ι → Nat
  | _, [] => 0
  | s, i :: is => (if w s i then 1 else 0) + count step w (step s i) is

theorem count_input (step : σ → ι → σ) (w : ι → Bool) (s : σ) (is : List ι) :
    count step (fun _ i => w i) s is = is.countP w := by
  induction is generalizing s with
  | nil => rfl
  | cons i is ih => rw [count, ih, List.countP_cons, Nat.add_comm]

/-- **The countdown rule**: what bounds the state and drops at every edge that counts has dropped,
    after a run, by the number of edges that count. -/
theorem run_counted {step : σ → ι → σ} {ok : σ → ι → Prop} {P : Nat → σ → Prop}
    {w : σ → ι → Bool}
    (hstep : ∀ m s i, P m s → ok s i → P (if w s i then m - 1 else m) (step s i)) {m : Nat} {s : σ}
    (h : P m s) (is : List ι) (hm : Meets step ok s is) :
    P (m - count step w s is) (run step s is) := by
  induction is generalizing m s with
  | nil => exact h
  | cons i is ih =>
      have hrun := ih (hstep m s i h hm.1) hm.2
      rw [count, run_cons, ← Nat.sub_sub]
      cases hw : w s i with
      | false => rw [hw] at hrun; exact hrun
      | true => rw [hw, if_pos rfl] at hrun; exact hrun

/-- **The rank rule**: where no guarded edge raises a rank and every edge that counts lowers it, no more
    edges count than the rank has to fall. -/
theorem count_le_rank {step : σ → ι → σ} {ok : σ → ι → Prop} {P : σ → Prop} {w : σ → ι → Bool}
    {rank : σ → Nat} (hstep : ∀ s i, P s → ok s i → P (step s i))
    (hrank : ∀ s i, P s → ok s i → (if w s i then 1 else 0) + rank (step s i) ≤ rank s) {s : σ} (h : P s)
    (is : List ι) (hm : Meets step ok s is) : count step w s is + rank (run step s is) ≤ rank s := by
  induction is generalizing s with
  | nil => exact Nat.le_of_eq (Nat.zero_add _)
  | cons i is ih =>
      have hone := hrank s i h hm.1
      have hrest := ih (hstep s i h hm.1) hm.2
      rw [count, run_cons]
      omega

/-- The countdown rule where the inputs alone decide. -/
theorem run_countdown {step : σ → ι → σ} {P : Nat → σ → Prop} {Q : ι → Prop} {w : ι → Bool}
    (hstep : ∀ m s i, P m s → Q i → P (if w i then m - 1 else m) (step s i)) {m : Nat} {s : σ}
    (h : P m s) (is : List ι) (hq : ∀ i ∈ is, Q i) : P (m - is.countP w) (run step s is) := by
  rw [← count_input step w s is]
  exact run_counted hstep h is (Meets.of_mem hq)

/-- The inputs of a run whose surroundings complete them from the state. -/
def driven {κ : Type*} (step : σ → ι → σ) (f : σ → κ → ι) : σ → List κ → List ι
  | _, [] => []
  | s, k :: ks => f s k :: driven step f (step s (f s k)) ks

theorem run_driven {κ : Type*} (step : σ → ι → σ) (f : σ → κ → ι) (s : σ) (ks : List κ) :
    run step s (driven step f s ks) = run (fun s k => step s (f s k)) s ks := by
  induction ks generalizing s with
  | nil => rfl
  | cons k ks ih => exact ih (step s (f s k))

theorem driven_append {κ : Type*} (step : σ → ι → σ) (f : σ → κ → ι) (s : σ) (ks ls : List κ) :
    driven step f s (ks ++ ls) =
      driven step f s ks ++ driven step f (run step s (driven step f s ks)) ls := by
  induction ks generalizing s with
  | nil => rfl
  | cons k ks ih => exact congrArg (f s k :: ·) (ih (step s (f s k)))

theorem mem_driven {κ : Type*} {step : σ → ι → σ} {f : σ → κ → ι} {s : σ} {ks : List κ} {i : ι}
    (h : i ∈ driven step f s ks) : ∃ s k, i = f s k := by
  induction ks generalizing s with
  | nil => cases h
  | cons k ks ih =>
      rcases List.mem_cons.mp h with rfl | h
      · exact ⟨s, k, rfl⟩
      · exact ih h

theorem countP_driven {κ : Type*} {step : σ → ι → σ} {f : σ → κ → ι} {w : ι → Bool} {w' : κ → Bool}
    (h : ∀ s k, w (f s k) = w' k) (s : σ) (ks : List κ) :
    (driven step f s ks).countP w = ks.countP w' := by
  induction ks generalizing s with
  | nil => rfl
  | cons k ks ih => rw [driven, List.countP_cons, List.countP_cons, ih, h]

/-- What the edges of a run show of `obs`, first edge first. -/
def log {ε : Type*} (step : σ → ι → σ) (obs : σ → ι → List ε) : σ → List ι → List ε
  | _, [] => []
  | s, i :: is => obs s i ++ log step obs (step s i) is

theorem log_append {ε : Type*} (step : σ → ι → σ) (obs : σ → ι → List ε) (s : σ) (is js : List ι) :
    log step obs s (is ++ js) = log step obs s is ++ log step obs (run step s is) js := by
  induction is generalizing s with
  | nil => rfl
  | cons i is ih => rw [List.cons_append, log, log, run_cons, ih, List.append_assoc]

/-- **The log rule**: what relates the start to what has been shown before, and survives every
    guarded edge together with what that edge shows, holds at the end of every guarded run. -/
theorem run_log {ε : Type*} {step : σ → ι → σ} {obs : σ → ι → List ε} {ok : σ → ι → Prop}
    {P : σ → List ε → Prop}
    (hstep : ∀ s i l, P s l → ok s i → P (step s i) (l ++ obs s i)) {s : σ} {l : List ε}
    (h : P s l) (is : List ι) (hm : Meets step ok s is) :
    P (run step s is) (l ++ log step obs s is) := by
  induction is generalizing s l with
  | nil => rw [log, List.append_nil]; exact h
  | cons i is ih =>
      rw [log, ← List.append_assoc]
      exact ih (hstep s i l h hm.1) hm.2

/-- The states reached from `init` by edges that meet the guard `ok`. -/
inductive Reachable (step : σ → ι → σ) (ok : σ → ι → Prop) (init : σ) : σ → Prop where
  | start : Reachable step ok init init
  | edge (s : σ) (i : ι) (h : Reachable step ok init s) (hi : ok s i) :
      Reachable step ok init (step s i)

variable {step : σ → ι → σ} {ok : σ → ι → Prop} {init : σ}

/-- **The invariant rule**: what holds at the start and survives every guarded edge holds in
    every reachable state. -/
theorem Reachable.invariant {P : σ → Prop} (h0 : P init)
    (hs : ∀ s i, P s → ok s i → P (step s i)) {s : σ} (h : Reachable step ok init s) : P s := by
  induction h with
  | start => exact h0
  | edge s i _ hi ih => exact hs s i ih hi

/-- A weaker guard reaches at least as much. -/
theorem Reachable.mono {ok' : σ → ι → Prop} (hok : ∀ s i, ok s i → ok' s i) {s : σ}
    (h : Reachable step ok init s) : Reachable step ok' init s := by
  induction h with
  | start => exact .start
  | edge s i _ hi ih => exact .edge s i ih (hok s i hi)

/-- What is reached from a reachable state is reachable. -/
theorem Reachable.trans {s t : σ} (h : Reachable step ok init s) (h' : Reachable step ok s t) :
    Reachable step ok init t := by
  induction h' with
  | start => exact h
  | edge t i _ hi ih => exact .edge t i ih hi

/-- A run from a reachable state that meets the guard ends in a reachable state. -/
theorem Reachable.append_run {s : σ} (h : Reachable step ok init s) (is : List ι)
    (hm : Meets step ok s is) : Reachable step ok init (run step s is) :=
  run_meets (fun s i hs hi => .edge s i hs hi) h is hm

/-- **A concrete guarded run reaches its end state.** -/
theorem Reachable.of_run (is : List ι) (hm : Meets step ok init is) :
    Reachable step ok init (run step init is) :=
  Reachable.start.append_run is hm

end Clocked
