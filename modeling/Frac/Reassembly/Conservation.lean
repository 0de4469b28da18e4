/-
  File:      Frac/Reassembly/Conservation.lean
  Subject:   Beats between scheduler `rx` and the queue FIFOs: in which runs each is written to one
             FIFO, once, in order.

  * `Conserved` -- every beat accepted has been written once, to one FIFO, in acceptance order;
  * `Settles` -- the edge writes every strobed beat and a beat accepted meanwhile goes to the same
    FIFO; `input_conserves_beats` -- in every run of such edges all beats are conserved;
  * `sticky_strobe_duplicates` -- two headers back to back, and the first is written twice.
-/
import Frac.Lib.Clocked
import Frac.Reassembly.Intake

namespace Frac.Reassembly

open Clocked

variable {n : Nat} {τ : Type}

section Run

variable [FifoKind]

/-! ## 1. Acceptance and writes, as the ports see them -/

/-- The scheduler with its history since the last reset: the beats accepted before the last edge,
    the beat accepted at it (whose write is due at the next), and the writes to each FIFO. -/
structure SchedSys (n : Nat) (τ : Type) where
  sched : Sched n τ
  accepted : List (RxBeat τ)
  fresh : Option (RxBeat τ)
  writes : Port n → List (QBeat τ)

def SchedSys.init (n : Nat) (τ : Type) [Inhabited τ] : SchedSys n τ :=
  ⟨Sched.reset n τ, [], none, fun _ => []⟩

/-- The beat written to a FIFO at this edge. -/
def Sched.written (s : Sched n τ) (p : Port n) : Option (QBeat τ) :=
  (s.fifoAt p).written (s.inp.strobe p)

def SchedSys.clock [Inhabited τ] (y : SchedSys n τ) (i : SchedIn τ) : SchedSys n τ :=
  if i.rst then SchedSys.init n τ
  else
    { sched := y.sched.edge i.rx i.txTready
      accepted := y.accepted ++ y.fresh.toList
      fresh := y.sched.accepted i.rx
      writes := fun p => y.writes p ++ (y.sched.written p).toList }

/-- The lines of the beats `bs` that `dest` sends to port `p`. -/
def sentTo (p : Port n) (bs : List (RxBeat τ)) (dest : List (Port n)) : List (Line τ) :=
  ((bs.zip dest).filter (·.2 = p)).map (·.1.line)

/-- **Every beat accepted is written once, to one FIFO, in acceptance order**, and nothing else is
    written. -/
def Conserved (y : SchedSys n τ) : Prop :=
  ∃ dest : List (Port n), dest.length = y.accepted.length ∧
    ∀ p, (y.writes p).map (·.line) = sentTo p y.accepted dest

omit [FifoKind] in
theorem sentTo_append (p : Port n) (bs : List (RxBeat τ)) (dest : List (Port n)) (b : RxBeat τ)
    (q : Port n) (hlen : dest.length = bs.length) :
    sentTo p (bs ++ [b]) (dest ++ [q]) = sentTo p bs dest ++ if q = p then [b.line] else [] := by
  unfold sentTo
  rw [List.zip_append hlen.symm, List.filter_append, List.map_append]
  by_cases h : q = p <;> simp [h]

/-! ## 2. The edges that conserve -/

/-- **The edge settles the input**: every strobed FIFO has room, an accepted beat has a FIFO, and no
    other FIFO's strobe is up when it is accepted. -/
def Settles (s : Sched n τ) (rx : Option (RxBeat τ)) : Prop :=
  (∀ p, (s.inp.strobe p).isSome = true → (s.fifoAt p).tready = true) ∧
  ∀ b ∈ s.accepted rx, (s.route b).port.isSome = true ∧
    ∀ p, (s.inp.strobe p).isSome = true → (s.route b).port = some p

instance (P : Port n → Prop) [DecidablePred P] : Decidable (∀ p, P p) :=
  decidable_of_iff (P .single ∧ ∀ k, P (.queue k))
    ⟨fun h p => by cases p with | single => exact h.1 | queue k => exact h.2 k,
      fun h => ⟨h _, fun k => h _⟩⟩

instance (s : Sched n τ) (rx : Option (RxBeat τ)) : Decidable (Settles s rx) :=
  inferInstanceAs (Decidable (_ ∧ _))

/-- The strobes hold the beat accepted at the last edge, at one port, and nothing else. -/
def FreshInv (y : SchedSys n τ) : Prop :=
  (y.fresh = none ∧ ∀ p, y.sched.inp.strobe p = none) ∨
  ∃ b q x, y.fresh = some b ∧ x.line = b.line ∧
    ∀ p, y.sched.inp.strobe p = if p = q then some x else none

theorem freshInv_edge {y : SchedSys n τ} [Inhabited τ] {i : SchedIn τ} (hrst : i.rst = false)
    (hs : Settles y.sched i.rx) : FreshInv (y.clock i) := by
  rw [SchedSys.clock, if_neg (by simp [hrst])]
  show (y.sched.accepted i.rx = none ∧ ∀ p, (y.sched.inEdge i.rx).strobe p = none) ∨ _
  unfold Sched.inEdge
  cases ha : y.sched.accepted i.rx with
  | none => exact Or.inl ⟨rfl, strobe_idle y.sched⟩
  | some b =>
      obtain ⟨hsome, honly⟩ := hs.2 b ha
      obtain ⟨q, hq⟩ := Option.isSome_iff_exists.mp hsome
      obtain ⟨x, hx, hline⟩ := strobe_take_self hq
      refine Or.inr ⟨b, q, x, rfl, hline, fun p => ?_⟩
      show (y.sched.inEdge i.rx).strobe p = _
      unfold Sched.inEdge
      rw [ha]
      by_cases hp : p = q
      · rw [if_pos hp, hp]
        exact hx
      · rw [if_neg hp]
        show (y.sched.take b).strobe p = none
        rw [strobe_take_other (fun e => hp (Option.some_injective _ (e.symm.trans hq)))]
        refine Option.not_isSome_iff_eq_none.mp fun hne => ?_
        exact hp (Option.some_injective _ ((honly p hne).symm.trans hq))

theorem written_of_settles {s : Sched n τ} {rx : Option (RxBeat τ)} (hs : Settles s rx)
    (p : Port n) : s.written p = s.inp.strobe p :=
  Fifo.written_fits (hs.1 p)

theorem conserved_edge {y : SchedSys n τ} [Inhabited τ] {i : SchedIn τ} (hrst : i.rst = false)
    (hs : Settles y.sched i.rx) (hf : FreshInv y) (hc : Conserved y) : Conserved (y.clock i) := by
  rw [SchedSys.clock, if_neg (by simp [hrst])]
  obtain ⟨dest, hlen, hw⟩ := hc
  rcases hf with ⟨hn, hp⟩ | ⟨b, q, x, hb, hx, hp⟩
  · refine ⟨dest, by simpa [hn] using hlen, fun p => ?_⟩
    show ((y.writes p) ++ (y.sched.written p).toList).map (·.line) = _
    rw [written_of_settles hs, hp p, hn]
    simpa using hw p
  · refine ⟨dest ++ [q], by simp [hb, hlen], fun p => ?_⟩
    show ((y.writes p) ++ (y.sched.written p).toList).map (·.line) =
      sentTo p (y.accepted ++ y.fresh.toList) (dest ++ [q])
    rw [written_of_settles hs, hp p, hb, List.map_append, hw p]
    show _ = sentTo p (y.accepted ++ [b]) (dest ++ [q])
    rw [sentTo_append p _ _ _ _ hlen]
    by_cases h : p = q
    · simp [h, hx]
    · simp [h, Ne.symm h]

/-- **In every run of settling edges the input conserves beats**: over any interleaving of
    connections, headers, sizes, gaps and resets, every beat accepted has been written once, to one
    FIFO, in acceptance order, and no FIFO has been written anything else. -/
theorem input_conserves_beats [Inhabited τ] {y : SchedSys n τ}
    (hr : Reachable SchedSys.clock (fun y i => Settles y.sched i.rx) (SchedSys.init n τ) y) :
    Conserved y := by
  have hinit : FreshInv (SchedSys.init n τ) ∧ Conserved (SchedSys.init n τ) :=
    ⟨Or.inl ⟨rfl, fun p => by cases p <;> rfl⟩, [], rfl, fun _ => rfl⟩
  refine (hr.invariant (P := fun y => FreshInv y ∧ Conserved y) hinit ?_).2
  intro y i ⟨hf, hc⟩ hs
  cases hrst : i.rst with
  | true =>
      rw [SchedSys.clock, if_pos hrst]
      exact hinit
  | false => exact ⟨freshInv_edge hrst hs, conserved_edge hrst hs hf hc⟩

end Run

section Ideal

attribute [local instance] idealFifos

/-- The header beat of a request of `size` bytes on connection `conn`, alone in its packet. -/
def headerBeat (conn : BitVec 16) (size : BitVec 32) : RxBeat Unit where
  dstPort := 0
  packetSize := size
  workload := 0
  length := 64
  connid := conn
  tlast := true
  payload := BitVec.twoPow 512 480
  tag := ()

/-- The edge that offers `rx`, with `tx` ready. -/
def rxEdge (rx : Option (RxBeat τ)) : SchedIn τ := ⟨false, rx, true⟩

/-- A header for a queue, a gap, a one-beat request. -/
def spacedRun : List (SchedIn Unit) :=
  [rxEdge (some (headerBeat 1 128)), rxEdge none, rxEdge (some (headerBeat 2 64)), rxEdge none]

theorem input_conserves_spaced : Conserved (run SchedSys.clock (SchedSys.init 2 Unit) spacedRun) :=
  input_conserves_beats (Reachable.of_run spacedRun (by decide +kernel))

theorem sentTo_sublist (p : Port n) (bs : List (RxBeat τ)) (dest : List (Port n)) :
    (sentTo p bs dest).Sublist (bs.map (·.line)) := by
  unfold sentTo
  induction bs generalizing dest with
  | nil => simp
  | cons b bs ih =>
      cases dest with
      | nil => simp
      | cons q dest =>
          rw [List.zip_cons_cons, List.filter_cons]
          split
          · exact (ih dest).cons_cons b.line
          · exact (ih dest).cons b.line

/-- Two headers back to back, on two connections. -/
def backToBackRun : List (SchedIn Unit) :=
  [rxEdge (some (headerBeat 1 128)), rxEdge (some (headerBeat 2 128)), rxEdge none]

/-- **A strobe stays up while another queue is served**: of two headers accepted back to back the
    first is written to its FIFO twice. -/
theorem sticky_strobe_duplicates :
    ¬ ∀ y : SchedSys 2 Unit, Reachable SchedSys.clock (fun _ _ => True) (SchedSys.init 2 Unit) y →
      Conserved y := by
  intro h
  obtain ⟨dest, -, hw⟩ := h (run SchedSys.clock (SchedSys.init 2 Unit) backToBackRun)
    (Reachable.of_run backToBackRun (Meets.of_forall (fun _ _ => trivial) _ _))
  have hsub := sentTo_sublist (.queue 0)
    (run SchedSys.clock (SchedSys.init 2 Unit) backToBackRun).accepted dest
  rw [← hw (.queue 0)] at hsub
  exact absurd hsub (by decide +kernel)

end Ideal

end Frac.Reassembly
