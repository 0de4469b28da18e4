/-
  File:      Frac/Client/AppLoop.lean
  Subject:   The request loop of `sw/app/main.go` on one connection, against a device whose slot holds
             `pattern_slot` or `or_slot`.

  `send` reads one line after each request; the two modules return every line of it. A byte on the
  connection carries the number of the request it answers, which the client does not see.

  * `App.main` -- the checks of `main`, the request and its loop; `echoBytes` -- what comes back
    for a request (`device_answers` -- **it is what the device sends**);
  * `sendLoop_left` -- what a loop leaves behind on the connection;
  * `client_in_step` -- **the client stays in step exactly when the request has no data line**.
-/
import Frac.Slots.Lengths

namespace Frac.Client

open Bits Clocked Reassembly Slots

/-! ## 1. The client -/

namespace App

/-- Bytes that have arrived and are not read yet, each with the request it answers. -/
abbrev Unread := List (Nat × BitVec 8)

/-- `io.ReadFull` into a buffer of `size` bytes; what does not come in time is the error of the
    deadline. -/
def readFull (size : Nat) (conn : Unread) : Except String (Unread × Unread) :=
  if conn.length < size then .error "i/o timeout" else .ok (conn.take size, conn.drop size)

/-- `send`, as request `iteration`: all segments are written, the device answers, one line is read. -/
def send (device : List (List (BitVec 8)) → List (BitVec 8)) (req : Request) (iteration : Nat)
    (conn : Unread) : Except String (Unread × Unread) :=
  match readFull requestLineBytes (conn ++ (device req.segments).map fun b => (iteration, b)) with
  | .error err => .error s!"read response: {err}"
  | .ok read => .ok read

/-- The loop of `main` from request `iteration` on: what each `send` returned, and what is left on the
    connection. -/
def sendLoop (device : List (List (BitVec 8)) → List (BitVec 8)) (req : Request) :
    Nat → Nat → Unread → Except String (List Unread × Unread)
  | 0, _, conn => .ok ([], conn)
  | more + 1, iteration, conn =>
    match send device req iteration conn with
    | .error err => .error s!"request {iteration}: {err}"
    | .ok (response, conn') =>
      match sendLoop device req more (iteration + 1) conn' with
      | .error err => .error err
      | .ok (responses, left) => .ok (response :: responses, left)

/-- `main` of `sw/app` for a payload that is read already, on a fresh connection. -/
def main (device : List (List (BitVec 8)) → List (BitVec 8)) (workload : BitVec 16)
    (payload : List (BitVec 8)) (topConfig : BitVec 16) (singleSegment : Bool) (count : Nat) :
    Except String (List Unread × Unread) :=
  if workload = reconfWorkloadID then
    .error "workload 0x00ab is the reconfiguration controller; use sw/pr for that"
  else if count < 1 then .error s!"-count must be at least 1, got {count}"
  else match buildRequest workload payload topConfig singleSegment with
    | .error err => .error err
    | .ok req => sendLoop device req count 0 []

/-- **The client is in step**: it has got one line for each request, of the response to that request,
    and all responses are read. -/
structure InStep (count : Nat) (out : List Unread × Unread) : Prop where
  sends : out.1.length = count
  own : ∀ {k : Nat} {response : Unread}, out.1[k]? = some response →
    response.length = requestLineBytes ∧ ∀ b ∈ response, b.1 = k
  drained : out.2 = []

/-! ## 2. The loop -/

section Loop

variable {device : List (List (BitVec 8)) → List (BitVec 8)} {req : Request}

theorem send_ok {conn : Unread} (iteration : Nat)
    (h : requestLineBytes ≤ conn.length + (device req.segments).length) :
    ∃ response conn', send device req iteration conn = .ok (response, conn') ∧
      conn'.length + requestLineBytes = conn.length + (device req.segments).length := by
  have hlen : (conn ++ (device req.segments).map fun b => (iteration, b)).length =
      conn.length + (device req.segments).length := by
    rw [List.length_append, List.length_map]
  have hsend := send.eq_1 device req iteration conn
  rw [readFull, if_neg (by omega)] at hsend
  refine ⟨_, _, hsend, ?_⟩
  rw [List.length_drop, hlen]
  omega

/-- **What the loop leaves behind**: of each response all but one line. -/
theorem sendLoop_left {d : Nat} (hd : (device req.segments).length = requestLineBytes * (d + 1))
    (count iteration : Nat) (conn : Unread) :
    ∃ responses left, sendLoop device req count iteration conn = .ok (responses, left) ∧
      left.length = conn.length + count * (requestLineBytes * d) := by
  induction count generalizing iteration conn with
  | zero => exact ⟨[], conn, rfl, by omega⟩
  | succ count ih =>
      rw [Nat.mul_succ] at hd
      have henough : requestLineBytes ≤ conn.length + (device req.segments).length := by omega
      obtain ⟨response, conn', hsend, hconn⟩ := send_ok iteration henough
      obtain ⟨responses, left, hloop, hleft⟩ := ih (iteration + 1) conn'
      refine ⟨response :: responses, left, ?_, ?_⟩
      · simp only [sendLoop, hsend, hloop]
      · rw [hleft, Nat.succ_mul]
        omega

/-- Responses of one line are read as they come. -/
theorem sendLoop_single (h : (device req.segments).length = requestLineBytes) (count iteration : Nat) :
    sendLoop device req count iteration [] =
      .ok ((List.range' iteration count).map fun k => (device req.segments).map fun b => (k, b), []) := by
  have hlen : ∀ k : Nat, ((device req.segments).map fun b => (k, b)).length = requestLineBytes := fun k => by
    rw [List.length_map, h]
  induction count generalizing iteration with
  | zero => rfl
  | succ count ih =>
      have hsend : send device req iteration [] =
          .ok ((device req.segments).map fun b => (iteration, b), []) := by
        rw [send, List.nil_append, readFull, if_neg (by rw [hlen]; exact Nat.lt_irrefl _),
          List.take_of_length_le (hlen _).le, List.drop_of_length_le (hlen _).le]
      rw [List.range'_succ, List.map_cons]
      simp only [sendLoop, hsend, ih]

/-- **A loop is in step exactly when a response is one line.** -/
theorem sendLoop_in_step {d count : Nat}
    (hd : (device req.segments).length = requestLineBytes * (d + 1)) (hc : 1 ≤ count) :
    (∃ out, sendLoop device req count 0 [] = .ok out ∧ InStep count out) ↔ d = 0 := by
  constructor
  · rintro ⟨out, hout, hstep⟩
    obtain ⟨responses, left, hloop, hleft⟩ := sendLoop_left hd count 0 []
    obtain rfl : (responses, left) = out := Except.ok.inj (hloop.symm.trans hout)
    have hnil : left = [] := hstep.drained
    rw [hnil, List.length_nil, Nat.zero_add, eq_comm, Nat.mul_eq_zero, Nat.mul_eq_zero] at hleft
    rcases hleft with h0 | hline | hd0
    · omega
    · exact absurd hline (by decide)
    · exact hd0
  · rintro rfl
    refine ⟨_, sendLoop_single hd count 0, ⟨by simp, fun {k response} hk => ?_, rfl⟩⟩
    rw [List.getElem?_map, Option.map_eq_some_iff] at hk
    obtain ⟨i, hi, rfl⟩ := hk
    obtain ⟨-, rfl⟩ := List.getElem?_eq_some_iff.mp hi
    rw [List.getElem_range', Nat.one_mul, Nat.zero_add]
    refine ⟨by rw [List.length_map, hd, Nat.mul_one], fun b hb => ?_⟩
    obtain ⟨b', -, rfl⟩ := List.mem_map.mp hb
    rfl

end Loop

end App

/-! ## 3. The device -/

/-- The bytes of response beats, as they go out. -/
def beatBytes (bs : List SlotBeat) : List (BitVec 8) := bs.flatMap fun b => toBytes 64 b.payload

/-- **What comes back for the segments of a request**: every line, as the module changes it. -/
def echoBytes (slot : EchoSlot) (segments : List (List (BitVec 8))) : List (BitVec 8) :=
  (lines 64 segments.flatten).flatMap fun l => toBytes 64 (slot.line l)

section Device

variable {workload : BitVec 16} {payload : List (BitVec 8)} {topConfig : BitVec 16} {req : App.Request}

theorem packets_lines (h : App.Built workload payload topConfig req) :
    (packets req).flatten.map (·.1) = lines 64 req.segments.flatten := by
  rw [lines_flatten (by decide) fun seg hseg => (segment_lines h hseg).1, packets, List.map_flatten,
    List.map_map]
  refine congrArg List.flatten (List.map_congr_left fun seg _ => ?_)
  rw [Function.comp_apply, List.map_map]
  exact List.map_id _

theorem length_echoBytes (h : App.Built workload payload topConfig req) (slot : EchoSlot) :
    (echoBytes slot req.segments).length = requestLineBytes * (req.dataLines + 1) := by
  have hline : ∀ l ∈ (packets req).flatten.map (·.1), (toBytes 64 (slot.line l)).length = 64 :=
    fun l _ => length_toBytes 64 _
  rw [echoBytes, ← packets_lines h, List.length_flatMap, List.map_congr_left hline, List.map_const',
    List.sum_replicate_nat, List.length_map, packets_length h]
  exact Nat.mul_comm _ _

/-- **The device answers with these bytes.** -/
theorem device_answers [FifoKind] {n : Nat} (h0 : 0 < n) (hn : n < 256) (h : App.Built workload payload topConfig req)
    {q : AppRequest Unit} (hq : q.packets = packets req) (slot : EchoSlot) :
    Answers n slot.module q (beatBytes · = echoBytes slot req.segments) := by
  rw [slot.module_eq]
  refine answers_of_service h0 hn ((wiresService (slotBeats q) _).mono fun out hout => ?_)
  rw [hout, echoBytes, ← packets_lines h, ← hq, ← slotBeats_payload, beatBytes, List.flatMap_map,
    List.flatMap_map]

end Device

/-- **The client stays in step exactly when the request has no data line.** The device answers each
    request of `sw/app` with the bytes of `echoBytes`; on these, whatever the slot and the count,
    every `send` of `main` returns a line of its own response and nothing is left unread if and only if
    the payload is empty. -/
theorem client_in_step [FifoKind] {n : Nat} (h0 : 0 < n) (hn : n < 256) {workload : BitVec 16}
    {payload : List (BitVec 8)} {topConfig : BitVec 16} {req : App.Request}
    (hreq : App.buildRequest workload payload topConfig false = .ok req)
    {session : BitVec 16} (hs : session ≠ 0xFFFF) (hw : workload ≠ 0x00ab)
    (hl : req.totalBytes ≤ 64 * 512) (slot : EchoSlot) {count : Nat} (hc : 1 ≤ count) :
    (∃ q : AppRequest Unit, q.connid = session ∧ q.packets = packets req ∧
      Answers n slot.module q (beatBytes · = echoBytes slot req.segments)) ∧
    ((∃ out, App.main (echoBytes slot) workload payload topConfig false count = .ok out ∧
      App.InStep count out) ↔ payload = []) := by
  have hbuilt := App.buildRequest_ok hreq
  refine ⟨⟨deliver hbuilt session hs hw hl, rfl, rfl, device_answers h0 hn hbuilt rfl slot⟩, ?_⟩
  have hmain : App.main (echoBytes slot) workload payload topConfig false count =
      App.sendLoop (echoBytes slot) req count 0 [] := by
    rw [App.main, reconfWorkloadID, if_neg hw, if_neg (Nat.not_lt.mpr hc), hreq]
  have hwhole := hbuilt.whole
  rw [requestLineBytes] at hwhole
  rw [hmain, App.sendLoop_in_step (length_echoBytes hbuilt slot) hc, ← List.length_eq_zero_iff]
  omega

section Source

attribute [local instance] axisDataFifos

/-- A header alone, three times. -/
theorem client_in_step_header :
    (∃ q : AppRequest Unit, q.connid = 5 ∧
      q.packets = packets ⟨1, reqFlagSingle, defaultTopConfig, 0, 64,
        [App.buildHeader 64 1 reqFlagSingle defaultTopConfig]⟩ ∧
      Answers 3 EchoSlot.or.module q (beatBytes · = echoBytes .or
        [App.buildHeader 64 1 reqFlagSingle defaultTopConfig])) ∧
    ∃ out, App.main (echoBytes .or) 1 [] defaultTopConfig false 3 = .ok out ∧ App.InStep 3 out := by
  have hstep := client_in_step (n := 3) (by decide) (by decide)
    (by rfl : App.buildRequest 1 [] defaultTopConfig false = .ok ⟨1, reqFlagSingle, defaultTopConfig, 0,
      64, [App.buildHeader 64 1 reqFlagSingle defaultTopConfig]⟩)
    (by decide : (5 : BitVec 16) ≠ 0xFFFF) (by decide) (by decide) .or (by decide : 1 ≤ 3)
  exact ⟨hstep.1, hstep.2.mpr rfl⟩

end Source

/-- Two requests of a header and one line of zeros: the second `send` returns the second line of the
    first response, and the second response is left. -/
theorem client_lags :
    App.buildRequest 1 (List.replicate 64 0) defaultTopConfig false = .ok oneLine ∧
    (∃ out, App.main (echoBytes .pattern) 1 (List.replicate 64 0) defaultTopConfig false 2 = .ok out ∧
      out.1.map (·.map (·.1)) = [List.replicate 64 0, List.replicate 64 0] ∧
      out.2.map (·.1) = List.replicate 128 1) ∧
    ¬ ∃ out, App.main (echoBytes .pattern) 1 (List.replicate 64 0) defaultTopConfig false 2 = .ok out ∧
      App.InStep 2 out := by
  have hout : ∃ out, App.main (echoBytes .pattern) 1 (List.replicate 64 0) defaultTopConfig false 2 =
      .ok out ∧ out.1.map (·.map (·.1)) = [List.replicate 64 0, List.replicate 64 0] ∧
      out.2.map (·.1) = List.replicate 128 1 := by
    refine ⟨((App.main (echoBytes .pattern) 1 (List.replicate 64 0) defaultTopConfig false
      2).toOption.getD ([], [])), ?_⟩
    decide +kernel
  refine ⟨rfl, hout, ?_⟩
  obtain ⟨out, hmain, -, hleft⟩ := hout
  rintro ⟨out', hmain', hstep⟩
  obtain rfl : out = out' := Except.ok.inj (hmain.symm.trans hmain')
  rw [hstep.drained] at hleft
  cases hleft

end Frac.Client
