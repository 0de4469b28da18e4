/-
  File:      Frac/Reconf/Responses.lean
  Subject:   Commands and responses over a whole run of the controller: everything its two stream
             ports see, in order, is a sequence of exchanges -- a command, the payload lines of a
             `WRITE_HBM`, one response that answers the command -- of which at most the last is
             still open.

  * `Event`, `portEvents` -- what `s_axis` and `m_axis` see at an edge;
  * `Answers` -- the responses a command can get, by its verdict;
  * `Talk` -- the exchanges so far and the open one (`talk_run`);
  * `one_response_per_command` -- the counts, the pairing and the stable response line.
-/
import Frac.Reconf.ReadHbm

namespace Frac.Reconf

open Clocked Bits

variable {slotCount : Nat}

/-! ## 1. What the stream ports see -/

/-- A line taken as a command (with the registers and pins at that edge), a line taken as payload,
    a response handed over. -/
inductive Event (slotCount : Nat) where
  | command (s : Ctrl slotCount) (i : In)
  | line (t : BitVec 512)
  | response (r : Resp)

/-- A line taken in `STATE_IDLE` is a command; the source takes no other line but payload. -/
def portEvents (s : Ctrl slotCount) (i : In) : List (Event slotCount) :=
  (if i.sAxisTvalid && s.sAxisTready then
      [if s.state = .idle then .command s i else .line i.sAxisTdata]
    else []) ++ (responseTaken s i).map .response

def Event.command? : Event slotCount → Option (Ctrl slotCount × In)
  | .command s i => some (s, i)
  | _ => none

def Event.response? : Event slotCount → Option Resp
  | .response r => some r
  | _ => none

/-- **The responses a command can get**: its error, the status as it was when the query was taken,
    or what its operation can end with. -/
inductive Answers (s : Ctrl slotCount) (i : In) : Resp → Prop where
  | rejected (e : Err) (hv : (Command.ofLine i.sAxisTdata).verdict slotCount = .reject e) :
      Answers s i (.status e)
  | queried (hv : (Command.ofLine i.sAxisTdata).verdict slotCount = .query) :
      Answers s i (.line (queryStatusData s i.icapAvail))
  | written (e : Err) (hv : (Command.ofLine i.sAxisTdata).verdict slotCount = .write)
      (he : e = .ok ∨ e = .axiBresp) : Answers s i (.status e)
  | read (d : BitVec 512) (hv : (Command.ofLine i.sAxisTdata).verdict slotCount = .read)
      (hd : ∀ k < 64, (Command.ofLine i.sAxisTdata).size ≤ k → byteAt d k = 0) :
      Answers s i (.line d)
  | readFailed (e : Err) (hv : (Command.ofLine i.sAxisTdata).verdict slotCount = .read)
      (he : e = .axiRresp ∨ e = .rlast) : Answers s i (.status e)
  | reconfigured (e : Err) (hv : (Command.ofLine i.sAxisTdata).verdict slotCount = .reconf)
      (he : e = .ok ∨ e = .icap ∨ e = .axiRresp ∨ e = .rlast) : Answers s i (.status e)

/-! ## 2. Exchanges -/

/-- A command, the payload lines taken for it, and its response. -/
structure Exchange (slotCount : Nat) where
  s : Ctrl slotCount
  i : In
  lines : List (BitVec 512)
  resp : Resp

/-- A command and the payload lines taken for it so far. -/
def opening (s : Ctrl slotCount) (i : In) (lines : List (BitVec 512)) : List (Event slotCount) :=
  .command s i :: lines.map .line

def Exchange.events (x : Exchange slotCount) : List (Event slotCount) :=
  opening x.s x.i x.lines ++ [.response x.resp]

/-- Only a `WRITE_HBM` has payload lines. -/
def PayloadOk (slotCount : Nat) (i : In) (lines : List (BitVec 512)) : Prop :=
  lines ≠ [] → (Command.ofLine i.sAxisTdata).verdict slotCount = .write

/-- The response answers the command, and payload lines belong to a write. -/
def Exchange.Legal (x : Exchange slotCount) : Prop :=
  Answers x.s x.i x.resp ∧ PayloadOk slotCount x.i x.lines

/-- The states of a running write and of a running read. -/
def St.writing : St → Bool
  | .writeWaitData | .writeAddr | .writeData | .writeResp => true
  | _ => false

def St.reading : St → Bool
  | .readAddr0 | .readData0 | .readAddr1 | .readData1 => true
  | _ => false

/-- **Where the open exchange stands.** -/
inductive Pending (s0 : Ctrl slotCount) (i0 : In) (lines : List (BitVec 512)) (s : Ctrl slotCount) :
    Prop where
  | write (hv : (Command.ofLine i0.sAxisTdata).verdict slotCount = .write)
      (hs : s.state.writing = true)
  | read (hv : (Command.ofLine i0.sAxisTdata).verdict slotCount = .read) (hl : lines = [])
      (hs : s.state.reading = true) (hn : s.remainingBytes = cmdSize i0.sAxisTdata)
      (hb : s.state = .readAddr1 ∨ s.state = .readData1 → s.remainingBytes > 32)
  | reconf (hv : (Command.ofLine i0.sAxisTdata).verdict slotCount = .reconf) (hl : lines = [])
      (hs : s.state.reconf = true)
  | answer (hs : s.state.sends = true) (ha : Answers s0 i0 s.response)
      (hl : PayloadOk slotCount i0 lines)

/-- **The run so far, as exchanges**: all closed, or one open. -/
inductive Talk (s : Ctrl slotCount) (l : List (Event slotCount)) : Prop where
  | closed (done : List (Exchange slotCount)) (hd : ∀ x ∈ done, x.Legal) (hs : s.state = .idle)
      (hl : l = done.flatMap Exchange.events)
  | opened (done : List (Exchange slotCount)) (hd : ∀ x ∈ done, x.Legal) (hs : s.state ≠ .idle)
      (s0 : Ctrl slotCount) (i0 : In) (lines : List (BitVec 512))
      (hp : Pending s0 i0 lines s) (hl : l = done.flatMap Exchange.events ++ opening s0 i0 lines)

/-! ## 3. One edge -/

theorem events_quiet {s : Ctrl slotCount} {i : In} (hv : (i.sAxisTvalid && s.sAxisTready) = false)
    (hr : (s.mAxisTvalid && i.mAxisTready) = false) : portEvents s i = [] := by
  rw [portEvents, responseTaken_none hr, hv]
  rfl

/-- A state that neither listens nor sends shows nothing on the stream ports. -/
theorem events_inner {s : Ctrl slotCount} (hsg : Signals s) (i : In) (h1 : s.state.listens = false)
    (h2 : s.state.sends = false) : portEvents s i = [] :=
  events_quiet (by rw [hsg.sAxisTready h1, Bool.and_false]) (by rw [hsg.mAxisTvalid, h2]; rfl)

theorem pending_accept (s : Ctrl slotCount) (i : In) :
    Pending s i []
      (((Command.ofLine i.sAxisTdata).verdict slotCount).outcome s i
        (idleRegs (latch s i) false)) := by
  cases hv : (Command.ofLine i.sAxisTdata).verdict slotCount with
  | reject e => exact .answer rfl (.rejected e hv) fun h => absurd rfl h
  | query => exact .answer rfl (.queried hv) fun h => absurd rfl h
  | write => exact .write hv rfl
  | read => exact .read hv rfl rfl rfl fun h => by rcases h with e | e <;> cases e
  | reconf => exact .reconf hv rfl rfl

/-- A running write: it takes a line, goes on, or answers. -/
theorem pending_write {s0 s s' : Ctrl slotCount} {i0 i : In} {lines : List (BitVec 512)}
    (hsg : Signals s) (hm : Move s i s')
    (hv : (Command.ofLine i0.sAxisTdata).verdict slotCount = .write)
    (hs : s.state.writing = true) :
    ∃ more, portEvents s i = more.map .line ∧ Pending s0 i0 (lines ++ more) s' := by
  have hsend : s.state.sends = false := by revert hs; cases s.state <;> simp [St.writing, St.sends]
  have hnone : (s.mAxisTvalid && i.mAxisTready) = false := by rw [hsg.mAxisTvalid, hsend]; rfl
  have hquiet : s.state ≠ .writeWaitData → portEvents s i = ([] : List (BitVec 512)).map .line := by
    intro hn
    refine events_inner hsg i ?_ hsend
    revert hs hn
    cases s.state <;> simp [St.writing, St.listens]
  cases hm
  case waitLine ho he => exact ⟨[], events_quiet he hnone, .write hv hs⟩
  case takeLine ho he =>
    refine ⟨[i.sAxisTdata], ?_, .write hv rfl⟩
    rw [portEvents, responseTaken_none hnone, if_pos he, if_neg (by rw [ho]; decide)]
    rfl
  case holdAw ho he => exact ⟨[], hquiet (by rw [ho]; decide), .write hv hs⟩
  case takeAw ho he => exact ⟨[], hquiet (by rw [ho]; decide), .write hv rfl⟩
  case holdW ho he => exact ⟨[], hquiet (by rw [ho]; decide), .write hv hs⟩
  case takeW ho he => exact ⟨[], hquiet (by rw [ho]; decide), .write hv rfl⟩
  case holdB ho he => exact ⟨[], hquiet (by rw [ho]; decide), .write hv hs⟩
  case errB ho he hb =>
    exact ⟨[], hquiet (by rw [ho]; decide),
      .answer rfl (.written .axiBresp hv (Or.inr rfl)) fun _ => hv⟩
  case nextHalf ho he _ _ _ => exact ⟨[], hquiet (by rw [ho]; decide), .write hv rfl⟩
  case writeDone ho he _ _ _ =>
    exact ⟨[], hquiet (by rw [ho]; decide), .answer rfl (.written .ok hv (Or.inl rfl)) fun _ => hv⟩
  case nextLine ho he _ _ _ => exact ⟨[], hquiet (by rw [ho]; decide), .write hv rfl⟩
  case holdAr addr ho he => rcases ho with ⟨e, -⟩ | ⟨e, -⟩ | ⟨e, -⟩ <;> rw [e] at hs <;> cases hs
  case takeAr addr next ho he =>
    rcases ho with ⟨e, -⟩ | ⟨e, -⟩ | ⟨e, -⟩ <;> rw [e] at hs <;> cases hs
  case holdR ho he => rcases ho with e | e | e <;> rw [e] at hs <;> cases hs
  case errR ho he _ _ => rcases ho with e | e | e <;> rw [e] at hs <;> cases hs
  case holdSend ho he => rcases ho with e | e <;> rw [e] at hs <;> cases hs
  case takeSend ho he => rcases ho with e | e <;> rw [e] at hs <;> cases hs
  all_goals simp_all [St.writing]

/-- A masked beat, alone or over the first half, leaves the bytes behind the size zero. -/
theorem sentLine_padded {n : BitVec 64} (hn : ¬ n > 32) (d : BitVec 256) {k : Nat} (hk : k < 64)
    (hkn : n.toNat ≤ k) :
    byteAt ((0 : BitVec 256) ++ maskData256 d (readFirstByteCount n)) k = 0 := by
  have hn' : n.toNat ≤ 32 := Nat.le_of_not_lt hn
  by_cases h : k < 32
  · rw [byteAt_append_low _ _ (by omega), maskData256_byteAt _ _ h, readFirstByteCount_toNat,
      if_neg (by omega)]
  · obtain ⟨j, rfl⟩ := Nat.exists_eq_add_of_le (Nat.le_of_not_lt h)
    rw [byteAt_append_high (k := 32) _ _ rfl]
    simp [byteAt]

theorem sentLine_padded_two {n : BitVec 64} (hn : n > 32) (d low : BitVec 256) {k : Nat}
    (hk : k < 64) (hkn : n.toNat ≤ k) :
    byteAt (maskData256 d (readSecondByteCount n) ++ low) k = 0 := by
  have hn' : 32 < n.toNat := hn
  obtain ⟨j, rfl⟩ := Nat.exists_eq_add_of_le (show 32 ≤ k by omega)
  rw [byteAt_append_high (k := 32) _ _ rfl, maskData256_byteAt _ _ (by omega),
    readSecondByteCount_toNat n (Nat.le_of_lt hn'), if_neg (by omega)]

/-- A running read: it goes on, or answers. -/
theorem pending_read {s0 s s' : Ctrl slotCount} {i0 i : In} (hm : Move s i s')
    (hv : (Command.ofLine i0.sAxisTdata).verdict slotCount = .read) (hs : s.state.reading = true)
    (hn : s.remainingBytes = cmdSize i0.sAxisTdata)
    (hb : s.state = .readAddr1 ∨ s.state = .readData1 → s.remainingBytes > 32) :
    Pending s0 i0 [] s' := by
  have hnil : PayloadOk slotCount i0 [] := fun h => absurd rfl h
  cases hm
  case holdAr addr ho he => exact .read hv rfl hs hn hb
  case takeAr addr next ho he =>
    rcases ho with ⟨e, -, rfl⟩ | ⟨e, -, rfl⟩ | ⟨e, -⟩
    · exact .read hv rfl rfl hn fun h => by rcases h with e | e <;> cases e
    · exact .read hv rfl rfl hn fun _ => hb (Or.inl e)
    · rw [e] at hs; cases hs
  case holdR ho he => exact .read hv rfl hs hn hb
  case errR ho he e hbad =>
    refine .answer rfl (.readFailed e hv ?_) hnil
    rcases hbad with ⟨-, rfl⟩ | ⟨-, -, rfl⟩
    · exact Or.inl rfl
    · exact Or.inr rfl
  case read0More ho he _ _ hgt => exact .read hv rfl rfl hn fun _ => hgt
  case read0Send ho he _ _ hle =>
    refine .answer rfl (.read _ hv fun k hk hkn => sentLine_padded hle _ hk ?_) hnil
    rw [hn, cmdSize_toNat]
    exact hkn
  case read1Send ho he _ _ =>
    refine .answer rfl (.read _ hv fun k hk hkn => sentLine_padded_two (hb (Or.inr ho)) _ _ hk ?_) hnil
    rw [hn, cmdSize_toNat]
    exact hkn
  case holdSend ho he => rcases ho with e | e <;> rw [e] at hs <;> cases hs
  case takeSend ho he => rcases ho with e | e <;> rw [e] at hs <;> cases hs
  all_goals simp_all [St.reading]

/-- A running reconfiguration: it goes on, or answers. -/
theorem pending_reconf {s0 s s' : Ctrl slotCount} {i0 i : In} (hm : Move s i s')
    (hv : (Command.ofLine i0.sAxisTdata).verdict slotCount = .reconf)
    (hs : s.state.reconf = true) : Pending s0 i0 [] s' := by
  have hnil : PayloadOk slotCount i0 [] := fun h => absurd rfl h
  cases hm
  case errR ho he e hbad =>
    refine .answer rfl (.reconfigured e hv ?_) hnil
    rcases hbad with ⟨-, rfl⟩ | ⟨-, -, rfl⟩
    · exact Or.inr (Or.inr (Or.inl rfl))
    · exact Or.inr (Or.inr (Or.inr rfl))
  case finish ho e he =>
    refine .answer rfl (.reconfigured e hv ?_) hnil
    rcases he with ⟨-, rfl⟩ | ⟨-, -, rfl⟩
    · exact Or.inr (Or.inl rfl)
    · exact Or.inl rfl
  case holdAr addr ho he => exact .reconf hv rfl hs
  case takeAr addr next ho he =>
    rcases ho with ⟨e, -⟩ | ⟨e, -⟩ | ⟨e, -, rfl⟩
    · rw [e] at hs; cases hs
    · rw [e] at hs; cases hs
    · exact .reconf hv rfl rfl
  case holdR ho he => exact .reconf hv rfl hs
  case takeBeat => exact .reconf hv rfl rfl
  case holdWord => exact .reconf hv rfl hs
  case lastWord => exact .reconf hv rfl rfl
  case beatEnd => exact .reconf hv rfl rfl
  case nextWord => exact .reconf hv rfl hs
  case waitDone => exact .reconf hv rfl hs
  case holdSend ho he => rcases ho with e | e <;> rw [e] at hs <;> cases hs
  case takeSend ho he => rcases ho with e | e <;> rw [e] at hs <;> cases hs
  all_goals simp_all [St.reconf]

theorem Pending.not_idle {s0 s : Ctrl slotCount} {i0 : In} {lines : List (BitVec 512)}
    (h : Pending s0 i0 lines s) : s.state ≠ .idle := by
  intro e
  cases h with
  | write _ hs | read _ _ hs | reconf _ _ hs | answer hs => rw [e] at hs; cases hs

/-- **One edge keeps the exchanges in order.** -/
theorem talk_edge {s : Ctrl slotCount} {l : List (Event slotCount)} (hsg : Signals s)
    (ht : Talk s l) (i : In) : Talk (s.edge i) (l ++ portEvents s i) := by
  generalize hs' : s.edge i = s'
  have hm := move_edge s i
  rw [hs'] at hm
  cases ht with
  | closed done hd hs hl =>
      have hnone : responseTaken s i = [] := responseTaken_none (by rw [hsg.mAxisTvalid, hs]; rfl)
      cases ha : accepts s i with
      | false =>
          rw [accepts_idle hs] at ha
          rw [events_quiet ha (by rw [hsg.mAxisTvalid, hs]; rfl), List.append_nil]
          cases hm
          case idleHold => exact .closed done hd hs hl
          all_goals simp_all
      | true =>
          have hp := pending_accept s i
          rw [← edge_accept ha, hs'] at hp
          refine .opened done hd hp.not_idle s i [] hp ?_
          rw [hl, portEvents, hnone, if_pos (accepts_iff.mp ha).2, if_pos hs]
          rfl
  | opened done hd hs s0 i0 lines hp hl =>
      cases hp with
      | write hv hst =>
          obtain ⟨more, hev, hp'⟩ :
              ∃ more, portEvents s i = more.map .line ∧ Pending s0 i0 (lines ++ more) s' :=
            pending_write hsg hm hv hst
          refine .opened done hd hp'.not_idle s0 i0 (lines ++ more) hp' ?_
          rw [hl, hev, opening, opening, List.map_append, List.append_assoc, List.cons_append]
      | read hv hnil hst hn hb =>
          have hp' : Pending s0 i0 [] s' := pending_read hm hv hst hn hb
          rw [events_inner hsg i, List.append_nil]
          · exact .opened done hd hp'.not_idle s0 i0 lines (by rw [hnil]; exact hp') hl
          · revert hst; cases s.state <;> simp [St.reading, St.listens]
          · revert hst; cases s.state <;> simp [St.reading, St.sends]
      | reconf hv hnil hst =>
          have hp' : Pending s0 i0 [] s' := pending_reconf hm hv hst
          rw [events_inner hsg i, List.append_nil]
          · exact .opened done hd hp'.not_idle s0 i0 lines (by rw [hnil]; exact hp') hl
          · revert hst; cases s.state <;> simp [St.reconf, St.listens]
          · revert hst; cases s.state <;> simp [St.reconf, St.sends]
      | answer hst hans hpay =>
          have hin : (i.sAxisTvalid && s.sAxisTready) = false := by
            rw [hsg.sAxisTready, Bool.and_false]
            revert hst; cases s.state <;> simp [St.sends, St.listens]
          rcases move_sends hm hst with ⟨h1, rfl⟩ | ⟨h1, rfl⟩
          · rw [events_quiet hin h1, List.append_nil]
            exact .opened done hd hs s0 i0 lines (.answer hst hans hpay) hl
          · refine .closed (done ++ [⟨s0, i0, lines, s.response⟩]) ?_ rfl ?_
            · intro x hx
              rcases List.mem_append.mp hx with h2 | h2
              · exact hd x h2
              · rw [List.mem_singleton.mp h2]
                exact ⟨hans, hpay⟩
            · rw [hl, portEvents, hin, responseTaken_some h1, List.flatMap_append,
                List.flatMap_singleton, Exchange.events, List.append_assoc]
              rfl

/-! ## 4. A whole run -/

/-- **From reset on, what the stream ports see is a sequence of exchanges.** -/
theorem talk_run (is : List In) (hr : ∀ i ∈ is, i.rst = false) :
    Signals (run Ctrl.clock (Ctrl.reset slotCount) is) ∧
      Talk (run Ctrl.clock (Ctrl.reset slotCount) is)
        (log Ctrl.clock portEvents (Ctrl.reset slotCount) is) := by
  refine run_log (P := fun s l => Signals s ∧ Talk s l) (fun s i l h hi => ?_)
    ⟨signals_reset, .closed [] (fun _ h => absurd h List.not_mem_nil) rfl rfl⟩ is (Meets.of_mem hr)
  have hc : s.clock i = s.edge i := by rw [Ctrl.clock, show i.rst = false from hi]; rfl
  rw [hc]
  exact ⟨signals_edge h.1 i, talk_edge h.1 h.2 i⟩

theorem commands_opening (s : Ctrl slotCount) (i : In) (lines : List (BitVec 512)) :
    (opening s i lines).filterMap Event.command? = [(s, i)] ∧
      (opening s i lines).filterMap Event.response? = [] := by
  simp [opening, Event.command?, Event.response?, List.filterMap_map]

/-- Each exchange shows one command and one response. -/
theorem commands_exchanges (done : List (Exchange slotCount)) :
    (done.flatMap Exchange.events).filterMap Event.command? = done.map (fun x => (x.s, x.i)) ∧
      (done.flatMap Exchange.events).filterMap Event.response? = done.map (·.resp) := by
  induction done with
  | nil => exact ⟨rfl, rfl⟩
  | cons x done ih =>
      obtain ⟨hc, hr⟩ := commands_opening x.s x.i x.lines
      simp only [List.flatMap_cons, List.filterMap_append, Exchange.events, hc, hr, ih.1, ih.2,
        List.map_cons]
      exact ⟨rfl, rfl⟩

theorem Pending.payloadOk {s0 s : Ctrl slotCount} {i0 : In} {lines : List (BitVec 512)}
    (h : Pending s0 i0 lines s) : PayloadOk slotCount i0 lines := by
  cases h with
  | write hv => exact fun _ => hv
  | read _ hl | reconf _ hl => exact fun h => absurd hl h
  | answer _ _ hl => exact hl

/-- The exchanges of a run: the closed ones, and what of an open one has been seen. -/
theorem Talk.exchanges {s : Ctrl slotCount} {l : List (Event slotCount)} (h : Talk s l) :
    ∃ (done : List (Exchange slotCount)) (rest : List (Event slotCount)),
      l = done.flatMap Exchange.events ++ rest ∧ (∀ x ∈ done, x.Legal) ∧
      (rest = [] ∨ ∃ s0 i0 lines, rest = opening s0 i0 lines ∧ PayloadOk slotCount i0 lines) := by
  cases h with
  | closed done hd _ hl => exact ⟨done, [], by rw [hl, List.append_nil], hd, Or.inl rfl⟩
  | opened done hd _ s0 i0 lines hp hl =>
      exact ⟨done, _, hl, hd, Or.inr ⟨s0, i0, lines, rfl, hp.payloadOk⟩⟩

/-- **One response per command, in order, nothing lost.** At the end `s` of every run from reset,
    with `l` what the stream ports have seen: `s_axis_tready` is high only in `STATE_IDLE` and
    `STATE_WRITE_WAIT_DATA`; `l` is a sequence of exchanges, the last one possibly open; there are
    as many responses as commands, or one less; the `k`-th response answers the `k`-th command.
    At the next edge a line handshaken on `s_axis` is taken as a command or as payload of the open
    write, and an offered response that is not taken stands still, no command being accepted. -/
theorem one_response_per_command (is : List In) (hr : ∀ i ∈ is, i.rst = false)
    {s : Ctrl slotCount} (hs : s = run Ctrl.clock (Ctrl.reset slotCount) is)
    {l : List (Event slotCount)} (hl : l = log Ctrl.clock portEvents (Ctrl.reset slotCount) is) :
    (s.sAxisTready = true → s.state = .idle ∨ s.state = .writeWaitData) ∧
    (∃ (done : List (Exchange slotCount)) (rest : List (Event slotCount)),
      l = done.flatMap Exchange.events ++ rest ∧ (∀ x ∈ done, x.Legal) ∧
      (rest = [] ∨ ∃ s0 i0 lines, rest = opening s0 i0 lines ∧ PayloadOk slotCount i0 lines)) ∧
    ((l.filterMap Event.response?).length = (l.filterMap Event.command?).length ∨
      (l.filterMap Event.response?).length + 1 = (l.filterMap Event.command?).length) ∧
    (∀ (k : Nat) (r : Resp), (l.filterMap Event.response?)[k]? = some r →
      ∃ s0 i0, (l.filterMap Event.command?)[k]? = some (s0, i0) ∧ Answers s0 i0 r) ∧
    ∀ i, i.rst = false →
      ((i.sAxisTvalid && s.sAxisTready) = true →
        s.state = .idle ∧ s.clock i = ((Command.ofLine i.sAxisTdata).verdict slotCount).outcome s i
          (idleRegs (latch s i) false) ∨
        s.state = .writeWaitData ∧ (s.clock i).dataLine = i.sAxisTdata ∧
          ∃ (done : List (Exchange slotCount)) (s0 : Ctrl slotCount) (i0 : In)
            (lines : List (BitVec 512)),
            l = done.flatMap Exchange.events ++ opening s0 i0 lines ∧
              (Command.ofLine i0.sAxisTdata).verdict slotCount = .write) ∧
      (s.mAxisTvalid = true → i.mAxisTready = false →
        (s.clock i).mAxisTvalid = true ∧ (s.clock i).response = s.response ∧
          accepts s i = false) := by
  obtain ⟨hsg, htalk⟩ : Signals s ∧ Talk s l := by
    rw [hs, hl]
    exact talk_run is hr
  have hlisten : s.sAxisTready = true → s.state = .idle ∨ s.state = .writeWaitData := by
    intro hready
    have := hsg.sAxisTready
    revert this
    cases s.state <;> simp [St.listens, hready]
  obtain ⟨done, rest, hseq, hlegal, hrest⟩ := htalk.exchanges
  obtain ⟨hcmds, hresps⟩ := commands_exchanges done
  refine ⟨hlisten, ⟨done, rest, hseq, hlegal, hrest⟩, ?_, fun k r hk => ?_, fun i hrst => ⟨?_, ?_⟩⟩
  · rw [hseq, List.filterMap_append, List.filterMap_append, hcmds, hresps]
    rcases hrest with rfl | ⟨s0, i0, lines, rfl, -⟩
    · exact Or.inl (by simp)
    · obtain ⟨h1, h2⟩ := commands_opening s0 i0 lines
      exact Or.inr (by simp [h1, h2])
  · have hresp : l.filterMap Event.response? = done.map (·.resp) := by
      rw [hseq, List.filterMap_append, hresps]
      rcases hrest with rfl | ⟨s0, i0, lines, rfl, -⟩
      · exact List.append_nil _
      · rw [(commands_opening s0 i0 lines).2, List.append_nil]
    rw [hresp, List.getElem?_map] at hk
    obtain ⟨x, hx, rfl⟩ := Option.map_eq_some_iff.mp hk
    refine ⟨x.s, x.i, ?_, (hlegal x (List.mem_of_getElem? hx)).1⟩
    rw [hseq, List.filterMap_append, hcmds,
      List.getElem?_append_left (by simpa using (List.getElem?_eq_some_iff.mp hx).1),
      List.getElem?_map, hx]
    rfl
  · have hc : s.clock i = s.edge i := by rw [Ctrl.clock, hrst]; rfl
    intro hv
    rw [hc]
    rcases hlisten (Bool.and_eq_true_iff.mp hv).2 with hidle | hwait
    · exact Or.inl ⟨hidle, edge_accept (accepts_iff.mpr ⟨hidle, hv⟩)⟩
    · refine Or.inr ⟨hwait, by simp [Ctrl.edge, hwait, writeWaitDataEdge, hv], ?_⟩
      cases htalk with
      | closed _ _ hidle => rw [hwait] at hidle; cases hidle
      | opened done _ _ s0 i0 lines hp hl =>
          refine ⟨done, s0, i0, lines, hl, ?_⟩
          cases hp with
          | write hv => exact hv
          | read _ _ h | reconf _ _ h | answer h => rw [hwait] at h; cases h
  · have hc : s.clock i = s.edge i := by rw [Ctrl.clock, hrst]; rfl
    intro hv hn
    have hsend : s.state.sends = true := hsg.mAxisTvalid.symm.trans hv
    rw [hc]
    rcases move_sends (move_edge s i) hsend with ⟨-, e⟩ | ⟨h1, -⟩
    · rw [e]
      refine ⟨hv, rfl, ?_⟩
      unfold accepts
      rw [decide_eq_false fun e => by rw [e] at hsend; cases hsend]
      rfl
    · rw [hn, Bool.and_false] at h1
      cases h1

/-- A rejected command, its answer stalled once and taken, and a query that waits for its answer. -/
def twoCommands : List In :=
  offer unalignedRead ++ stallThenTake ++ offer (commandLine opQueryStatus 0 0 0)

theorem one_response_twoCommands :
    (((log Ctrl.clock portEvents (Ctrl.reset 2) twoCommands).filterMap Event.response?)[0]? =
        some (.status .align)) ∧
      ∃ s0 i0, ((log Ctrl.clock portEvents (Ctrl.reset 2) twoCommands).filterMap
        Event.command?)[0]? = some (s0, i0) ∧ Answers s0 i0 (.status .align) := by
  have hk : ((log Ctrl.clock portEvents (Ctrl.reset 2) twoCommands).filterMap Event.response?)[0]? =
      some (.status .align) := by decide +kernel
  obtain ⟨-, -, -, hpair, -⟩ := one_response_per_command twoCommands (by decide +kernel)
    (rfl : _ = run Ctrl.clock (Ctrl.reset 2) twoCommands) rfl
  exact ⟨hk, hpair 0 _ hk⟩

end Frac.Reconf
