/-
  File:      Frac/Tcp/Listen.lean
  Subject:   The request to listen on the server port (`tcp_top_loopback.v`, the block with
             `port_opened`). The status of the request is taken and not looked at.

  * `Listen.clock` -- one clock edge; `asks` -- the first edge at which the port is asked for;
  * `Listening` -- what the registers say of the edges since the reset, `listening_run`;
  * `listen_once` -- **the request is shown at one edge and never again**, taken or not.
-/
import Frac.Lib.Clocked

namespace Frac.Tcp

open Clocked

/-! ## 1. The registers -/

structure Listen where
  portOpened : Bool
  listenPortValid : Bool
  listenPortData : BitVec 16
  myClock : BitVec 16

structure ListenIn where
  rst : Bool
  listenPortTready : Bool

namespace Listen

def reset : Listen := ⟨false, false, 0, 0⟩

/-- The port, 2888. -/
def serverPort : BitVec 16 := 0x0B48

/-- The port is asked for at this edge. -/
def opens (s : Listen) (i : ListenIn) : Bool := s.myClock.getLsbD 15 && !s.portOpened && i.listenPortTready

/-- **One clock edge.** -/
def clock (s : Listen) (i : ListenIn) : Listen :=
  if i.rst then reset
  else
    { portOpened := s.opens i || s.portOpened
      listenPortValid := s.opens i
      listenPortData := if s.opens i then serverPort else s.listenPortData
      myClock := s.myClock + 1 }

/-- `m_axis_listen_port`, and the beat that the stack takes. -/
def shown (s : Listen) : Option (BitVec 16) := if s.listenPortValid then some s.listenPortData else none
def taken (s : Listen) (i : ListenIn) : Option (BitVec 16) := if i.listenPortTready then s.shown else none

end Listen

/-! ## 2. The request -/

/-- The upper half of the clock's period. -/
def upperHalf (k : Nat) : Bool := decide (2 ^ 15 ≤ k % 2 ^ 16)

/-- **The first edge at which the port is asked for**, by `tready` at the edges since the reset. -/
def asks (ready : List Bool) : Option Nat := (List.range ready.length).find? fun k => upperHalf k && ready.getD k false

theorem asks_concat (ready : List Bool) (b : Bool) :
    asks (ready ++ [b]) = (asks ready).or (if upperHalf ready.length && b then some ready.length else none) := by
  have hold : (List.range ready.length).find? (fun k => upperHalf k && (ready ++ [b]).getD k false) = asks ready := by
    refine List.find?_congr fun k hk => ?_
    rw [List.getD_append _ _ _ _ (List.mem_range.mp hk)]
  have hnew : (ready ++ [b]).getD ready.length false = b := by
    rw [List.getD_append_right _ _ _ _ le_rfl, Nat.sub_self]
    rfl
  rw [asks, List.length_append, List.length_singleton, List.range_succ, List.find?_append, hold]
  congr 1
  rw [List.find?_singleton, hnew]

theorem asks_lt {ready : List Bool} {k : Nat} (h : asks ready = some k) : k < ready.length :=
  List.mem_range.mp (List.mem_of_find?_eq_some h)

/-- The registers with what was shown and what was taken since the last reset. -/
structure ListenTally where
  state : Listen
  ready : List Bool
  shown : List (BitVec 16)
  taken : List (BitVec 16)

namespace ListenTally

def init : ListenTally := ⟨.reset, [], [], []⟩

def clock (t : ListenTally) (i : ListenIn) : ListenTally :=
  if i.rst then init
  else ⟨t.state.clock i, t.ready ++ [i.listenPortTready], t.shown ++ t.state.shown.toList,
    t.taken ++ (t.state.taken i).toList⟩

end ListenTally

/-- **What the registers say of the edges since the reset.** -/
structure Listening (t : ListenTally) : Prop where
  clock : t.state.myClock = BitVec.ofNat 16 t.ready.length
  opened : t.state.portOpened = (asks t.ready).isSome
  valid : t.state.listenPortValid = decide ((asks t.ready).map (· + 1) = some t.ready.length)
  data : t.state.portOpened = true → t.state.listenPortData = Listen.serverPort
  shown : t.shown = if (asks t.ready).any (fun k => decide (k + 1 < t.ready.length)) then [Listen.serverPort] else []
  taken : t.taken = if (asks t.ready).any (fun k => t.ready.getD (k + 1) false) then [Listen.serverPort] else []

theorem upperHalf_clock (k : Nat) : (BitVec.ofNat 16 k).getLsbD 15 = upperHalf k := by
  rw [BitVec.getLsbD_ofNat, Nat.testBit_eq_decide_div_mod_eq, upperHalf]
  refine (Bool.true_and _).trans (decide_eq_decide.mpr ?_)
  omega

theorem listening_init : Listening .init := ⟨rfl, rfl, rfl, fun h => absurd h Bool.false_ne_true, rfl, rfl⟩

/-- **One edge.** -/
theorem listening_clock {t : ListenTally} (h : Listening t) (i : ListenIn) : Listening (t.clock i) := by
  obtain ⟨hclock, hopened, hvalid, hdata, hshown, htaken⟩ := h
  rw [ListenTally.clock]
  cases hrst : i.rst with
  | true => exact listening_init
  | false =>
      have hopens : t.state.opens i = (upperHalf t.ready.length && (asks t.ready).isNone && i.listenPortTready) := by
        rw [Listen.opens, hclock, upperHalf_clock, hopened, Option.not_isSome]
      have hcount : t.state.myClock + 1 = BitVec.ofNat 16 (t.ready.length + 1) := by
        rw [hclock]
        exact (BitVec.ofNat_add ..).symm
      have hstate : t.state.clock i = ⟨t.state.opens i || t.state.portOpened, t.state.opens i,
          if t.state.opens i then Listen.serverPort else t.state.listenPortData, t.state.myClock + 1⟩ := by
        rw [Listen.clock, hrst]
        rfl
      have hlen : (t.ready ++ [i.listenPortTready]).length = t.ready.length + 1 := by
        rw [List.length_append, List.length_singleton]
      have hconcat := asks_concat t.ready i.listenPortTready
      rw [if_neg Bool.false_ne_true, hstate]
      cases hasks : asks t.ready with
      | none =>
          -- nothing was asked for so far, and nothing is shown at this edge
          rw [hasks] at hopens hopened hvalid hshown htaken hconcat
          have hquiet : t.state.shown = none := by
            rw [Listen.shown, hvalid]
            rfl
          have hmute : t.state.taken i = none := by rw [Listen.taken, hquiet, ite_self]
          rw [Option.isNone_none, Bool.and_true] at hopens
          rw [Option.none_or, ← hopens] at hconcat
          rw [hquiet, hmute, hopened, hshown, htaken]
          cases hnow : t.state.opens i with
          | false =>
              rw [hnow] at hconcat
              refine ⟨hcount.trans (congrArg _ hlen.symm), ?_, ?_, fun h => absurd h Bool.false_ne_true, ?_, ?_⟩ <;>
                simp [hconcat]
          | true =>
              rw [hnow] at hconcat
              refine ⟨hcount.trans (congrArg _ hlen.symm), ?_, ?_, fun _ => rfl, ?_, ?_⟩ <;> simp [hconcat]
      | some k =>
          have hk := asks_lt hasks
          rw [hasks] at hopens hopened hvalid hshown htaken hconcat
          have hnow : t.state.opens i = false := by rw [hopens, Option.isNone_some, Bool.and_false, Bool.false_and]
          have hport := hdata hopened
          have hold : asks (t.ready ++ [i.listenPortTready]) = some k := hconcat
          rw [hnow, hopened]
          refine ⟨hcount.trans (congrArg _ hlen.symm), by rw [hold]; rfl, ?_, fun _ => hport, ?_, ?_⟩
          · show false = decide _
            rw [hold, hlen]
            simp
            omega
          · show t.shown ++ t.state.shown.toList = _
            rw [hold, hlen, hshown, Listen.shown, hvalid, hport]
            by_cases hnext : k + 1 = t.ready.length
            · simp [hnext, hk]
            · have hlater : k + 1 < t.ready.length := by omega
              simp [hnext, hk, hlater]
          · show t.taken ++ (t.state.taken i).toList = _
            rw [hold, htaken, Listen.taken, Listen.shown, hvalid, hport, Option.any_some, Option.any_some]
            by_cases hnext : k + 1 = t.ready.length
            · have hlast : (t.ready ++ [i.listenPortTready]).getD (k + 1) false = i.listenPortTready := by
                rw [List.getD_append_right _ _ _ _ hnext.ge, hnext, Nat.sub_self]
                rfl
              rw [hlast, List.getD_eq_default _ _ hnext.ge]
              cases i.listenPortTready <;> simp [hnext]
            · rw [List.getD_append _ _ _ _ (by omega)]
              simp [hnext]

/-- **A run**, with resets at any edges. -/
theorem listening_run (is : List ListenIn) : Listening (run ListenTally.clock .init is) :=
  run_all (P := Listening) (fun _ i h => listening_clock h i) listening_init is

/-- **The port is asked for once.** In every run, with resets at any edges: since the last reset the request
    has been shown at one edge at most, the one after the first edge in an upper half of the clock's
    period at which the stack was ready. The stack has got it if it was ready at that edge too, and
    otherwise has not and will not: the request is not made again. Only port 2888 is asked for. -/
theorem listen_once (is : List ListenIn) :
    let t := run ListenTally.clock .init is
    t.shown = (if (asks t.ready).any (fun k => decide (k + 1 < t.ready.length)) then [Listen.serverPort] else []) ∧
      t.taken = (if (asks t.ready).any (fun k => t.ready.getD (k + 1) false) then [Listen.serverPort] else []) :=
  ⟨(listening_run is).shown, (listening_run is).taken⟩

end Frac.Tcp
