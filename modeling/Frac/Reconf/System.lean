/-
  File:      Frac/Reconf/System.lean
  Subject:   The controller in its surroundings: the memory behind its AXI master, and the history
             of the command it is working on. The history is proof-only: nothing reads it but the
             theorems.

  * `Signals` -- every handshake signal is high only in the states that own it
    (`signals_reachable`);
  * `Hist` -- what the ports have seen since the current command was accepted;
  * `Sys.clock` -- one edge of controller, memory and history together;
  * `WritesOkay`, `ReadsOkay` -- the guards: an AXI memory that answers every write OKAY, one
    that answers every read with the stored beat, OKAY and RLAST.
-/
import Frac.Lib.Clocked
import Frac.Reconf.Moves

namespace Frac.Reconf

open Clocked

variable {slotCount : Nat}

/-! ## 1. Which state owns which signal -/

/-- The states that take a line from `s_axis`. -/
def St.listens : St → Bool
  | .idle | .writeWaitData => true
  | _ => false

/-- The states that hold a response line. -/
def St.sends : St → Bool
  | .readSend | .sendStatus => true
  | _ => false

/-- The states that present a read address. -/
def St.addresses : St → Bool
  | .readAddr0 | .readAddr1 | .reconfAddr => true
  | _ => false

/-- The states that wait for a read beat. -/
def St.fetches : St → Bool
  | .readData0 | .readData1 | .reconfData => true
  | _ => false

/-- The states in which a command is accepted and not yet answered. -/
def St.busy : St → Bool
  | .idle | .readSend | .sendStatus | .other => false
  | _ => true

/-- **Every handshake signal belongs to its states.** -/
structure Signals (s : Ctrl slotCount) : Prop where
  sAxisTready : s.state.listens = false → s.sAxisTready = false
  mAxisTvalid : s.mAxisTvalid = s.state.sends
  icapTvalid : s.icapTvalid = decide (s.state = .reconfStream)
  awvalid : s.state ≠ .writeAddr → s.awvalid = false
  wvalid : s.wvalid = decide (s.state = .writeData)
  bready : s.bready = decide (s.state = .writeResp)
  arvalid : s.state.addresses = false → s.arvalid = false
  rready : s.rready = s.state.fetches
  defined : s.state ≠ .other

theorem signals_reset : Signals (Ctrl.reset slotCount) := by
  constructor <;> simp [Ctrl.reset, St.listens, St.sends, St.addresses, St.fetches]

theorem signals_edge {s : Ctrl slotCount} (h : Signals s) (i : In) : Signals (s.edge i) := by
  obtain ⟨h1, h2, h3, h4, h5, h6, h7, h8, h9⟩ := h
  generalize hs' : s.edge i = s'
  have hm := move_edge s i
  rw [hs'] at hm
  cases hm
  -- the moves several states share: the state first, then the fields
  case holdAr addr hs _ =>
    rcases hs with ⟨hs, -⟩ | ⟨hs, -⟩ | ⟨hs, -⟩ <;> constructor <;>
      simp [*, latch, St.sends, St.listens, St.addresses, St.fetches]
  case takeAr hs _ =>
    rcases hs with ⟨hs, -, rfl⟩ | ⟨hs, -, rfl⟩ | ⟨hs, -, rfl⟩ <;> constructor <;>
      simp [*, latch, St.sends, St.listens, St.addresses, St.fetches]
  case holdR hs _ =>
    rcases hs with hs | hs | hs <;> constructor <;>
      simp [*, latch, St.sends, St.listens, St.addresses, St.fetches]
  case errR hs _ _ _ =>
    rcases hs with hs | hs | hs <;> constructor <;>
      simp [*, latch, startStatus, St.sends, St.listens, St.addresses, St.fetches]
  case holdSend hs _ =>
    rcases hs with hs | hs <;> constructor <;>
      simp [*, latch, St.sends, St.listens, St.addresses, St.fetches]
  case takeSend hs _ =>
    rcases hs with hs | hs <;> constructor <;>
      simp [*, latch, St.sends, St.listens, St.addresses, St.fetches]
  all_goals
    constructor <;>
      simp [*, startStatus, startQueryStatus, startWrite, startRead, startReconf, finishReconf,
        readSendLine, idleRegs, latch, St.sends, St.listens, St.addresses, St.fetches]

theorem signals_clock {s : Ctrl slotCount} (h : Signals s) (i : In) : Signals (s.clock i) := by
  unfold Ctrl.clock
  cases i.rst with
  | true => exact signals_reset
  | false => exact signals_edge h i

/-- The controller presents the one-line status `e`. -/
def Ctrl.answers (s : Ctrl slotCount) (e : Err) : Prop :=
  s.mAxisTvalid = true ∧ s.mAxisTdata = e.code.setWidth 512

instance (s : Ctrl slotCount) (e : Err) : Decidable (s.answers e) :=
  inferInstanceAs (Decidable (_ ∧ _))

/-- The status line tells the codes apart. -/
theorem Err.line_injective {e e' : Err}
    (h : e.code.setWidth 512 = (e'.code.setWidth 512 : BitVec 512)) : e = e' := by
  have hc : e.code = e'.code := by
    have := congrArg (BitVec.setWidth 8) h
    simpa using this
  revert hc
  cases e <;> cases e' <;> decide

theorem startStatus_answers (r : Ctrl slotCount) (e : Err) : (startStatus r e).answers e := ⟨rfl, rfl⟩

/-! ## 2. The history of a command -/

/-- What the ports of the controller have seen since the command `cmd` was accepted. -/
structure Hist where
  /-- the command line -/
  cmd : BitVec 512
  /-- the memory when the command was accepted -/
  mem0 : Mem 33
  /-- the inputs at the edges after the acceptance edge, up to the answering edge -/
  edges : List In
  /-- the payload lines taken from `s_axis` -/
  lines : List (BitVec 512)
  /-- the read addresses handshaken on AR -/
  reads : List (BitVec 33)
  /-- the words handshaken on `m_axis_icap`, with `tlast` -/
  words : List (BitVec 32 × Bool)
  /-- the inputs at the edges from the one that took the `tlast` word, up to the answering edge -/
  afterLast : List In

/-- The address of the command, as the controller keeps it. -/
def Hist.addr (h : Hist) : BitVec 33 := (cmdAddr h.cmd).setWidth 33

/-- The edge accepts a command. -/
def accepts (s : Ctrl slotCount) (i : In) : Bool :=
  decide (s.state = .idle) && (i.sAxisTvalid && s.sAxisTready)

def Hist.start (cmd : BitVec 512) (mem : Mem 33) : Hist :=
  ⟨cmd, mem, [], [], [], [], []⟩

/-- The edge takes the word marked `tlast`, or an earlier edge has. -/
def Hist.lastTaken (h : Hist) (s : Ctrl slotCount) (i : In) : Bool :=
  h.words.any (·.2) || (s.icapTvalid && i.icapTready && s.icapTlast)

def Hist.next (h : Hist) (s : Ctrl slotCount) (i : In) : Hist where
  cmd := h.cmd
  mem0 := h.mem0
  edges := if s.state.busy then h.edges ++ [i] else h.edges
  lines := if i.sAxisTvalid && s.sAxisTready then h.lines ++ [i.sAxisTdata] else h.lines
  reads := if s.arvalid && i.arready then h.reads ++ [s.araddr] else h.reads
  words := if s.icapTvalid && i.icapTready then h.words ++ [(s.icapTdata, s.icapTlast)] else h.words
  afterLast := if s.state.busy && h.lastTaken s i then h.afterLast ++ [i] else h.afterLast

/-! ## 3. Controller, memory and history -/

/-- The controller, the memory behind its AXI master, the addresses last handshaken on AW and
    AR, and the history of the current command. -/
structure Sys (slotCount : Nat) where
  ctrl : Ctrl slotCount
  mem : Mem 33
  aw : BitVec 33
  ar : BitVec 33
  hist : Option Hist

/-- Out of reset, over any memory. -/
def Sys.init (slotCount : Nat) (mem : Mem 33) : Sys slotCount :=
  ⟨Ctrl.reset slotCount, mem, 0, 0, none⟩

/-- The memory after an edge: a W handshake applies its strobes at the AW address. -/
def Sys.memNext (y : Sys slotCount) (i : In) : Mem 33 :=
  if y.ctrl.wvalid && i.wready then y.mem.strobed (k := 32) y.aw y.ctrl.wdata y.ctrl.wstrb else y.mem

def Sys.histNext (y : Sys slotCount) (i : In) : Option Hist :=
  if i.rst then none
  else if accepts y.ctrl i then some (Hist.start i.sAxisTdata y.mem)
  else y.hist.map (·.next y.ctrl i)

/-- **One clock edge of the system.** -/
def Sys.clock (y : Sys slotCount) (i : In) : Sys slotCount where
  ctrl := y.ctrl.clock i
  mem := y.memNext i
  aw := if y.ctrl.awvalid && i.awready then y.ctrl.awaddr else y.aw
  ar := if y.ctrl.arvalid && i.arready then y.ctrl.araddr else y.ar
  hist := y.histNext i

/-- The memory answers every write OKAY. -/
def WritesOkay (y : Sys slotCount) (i : In) : Prop :=
  (i.bvalid && y.ctrl.bready) = true → i.bresp = 0

/-- The memory answers every read with the stored beat, OKAY and RLAST. -/
def ReadsOkay (y : Sys slotCount) (i : In) : Prop :=
  (i.rvalid && y.ctrl.rready) = true →
    i.rdata = y.mem.beat y.ar 32 ∧ i.rresp = 0 ∧ i.rlast = true

/-- Any surroundings at all. -/
def AnyInput (_ : Sys slotCount) (_ : In) : Prop := True

theorem signals_reachable {ok : Sys slotCount → In → Prop} {mem : Mem 33} {y : Sys slotCount}
    (h : Reachable Sys.clock ok (Sys.init slotCount mem) y) : Signals y.ctrl :=
  h.invariant (P := fun y => Signals y.ctrl) signals_reset fun _ i hy _ => signals_clock hy i

@[simp] theorem clock_ctrl (y : Sys slotCount) (i : In) : (y.clock i).ctrl = y.ctrl.clock i := rfl

/-! ## 4. How the history moves -/

theorem histNext_rst {y : Sys slotCount} {i : In} (h : i.rst = true) : y.histNext i = none := by
  rw [Sys.histNext, if_pos h]

theorem histNext_accept {y : Sys slotCount} {i : In} (hr : i.rst = false)
    (ha : accepts y.ctrl i = true) : y.histNext i = some (Hist.start i.sAxisTdata y.mem) := by
  rw [Sys.histNext, if_neg (by simp [hr]), if_pos ha]

theorem histNext_run {y : Sys slotCount} {i : In} (hr : i.rst = false)
    (ha : accepts y.ctrl i = false) : y.histNext i = y.hist.map (·.next y.ctrl i) := by
  rw [Sys.histNext, if_neg (by simp [hr]), if_neg (by simp [ha])]

/-- An edge with `rst` low moves the controller. -/
theorem clock_move (y : Sys slotCount) {i : In} (hr : i.rst = false) :
    ∃ s', (y.clock i).ctrl = s' ∧ Move y.ctrl i s' := by
  refine ⟨y.ctrl.edge i, ?_, move_edge y.ctrl i⟩
  simp [Ctrl.clock, hr]

theorem accepts_iff {s : Ctrl slotCount} {i : In} : accepts s i = true ↔
    s.state = .idle ∧ (i.sAxisTvalid && s.sAxisTready) = true := by
  simp [accepts]

theorem accepts_idle {s : Ctrl slotCount} {i : In} (hs : s.state = .idle) :
    accepts s i = (i.sAxisTvalid && s.sAxisTready) := by
  simp [accepts, hs]

/-- An accepted command that passes its checks starts its operation. -/
theorem clock_executes {y : Sys slotCount} {i : In} (hr : i.rst = false)
    (ha : accepts y.ctrl i = true) {op : BitVec 8} (hx : Executes slotCount i.sAxisTdata op) :
    op = opWriteHbm ∧
      (y.clock i).ctrl = startWrite (idleRegs (latch y.ctrl i) false) i.sAxisTdata ∨
    op = opReadHbm ∧
      (y.clock i).ctrl = startRead (idleRegs (latch y.ctrl i) false) i.sAxisTdata ∨
    op = opReconfIcap ∧
      (y.clock i).ctrl = startReconf (idleRegs (latch y.ctrl i) false) i.sAxisTdata := by
  obtain ⟨hidle, hv⟩ := accepts_iff.mp ha
  have hop : ∀ op', Executes slotCount i.sAxisTdata op' → op = op' := fun op' ho =>
    hx.opcode.symm.trans ho.opcode
  obtain ⟨s', hs', hm⟩ := clock_move y hr
  rw [hs']
  cases hm
  case startWrite _ _ hx' => exact Or.inl ⟨hop _ hx', rfl⟩
  case startRead _ _ hx' => exact Or.inr (Or.inl ⟨hop _ hx', rfl⟩)
  case startReconf _ _ hx' => exact Or.inr (Or.inr ⟨hop _ hx', rfl⟩)
  case reject _ _ e he hn => exact absurd hx (hn _)
  case query _ _ ho =>
    have e : op = opQueryStatus := hx.opcode.symm.trans ho
    rcases hx.known with k | k | k <;> rw [k] at e <;> exact absurd e (by decide)
  all_goals simp_all

section Ports

variable {h : Hist} {s : Ctrl slotCount} {i : In}

theorem next_lines_hold (hv : (i.sAxisTvalid && s.sAxisTready) = false) :
    (h.next s i).lines = h.lines := if_neg (Bool.eq_false_iff.mp hv)

theorem next_lines_take (hv : (i.sAxisTvalid && s.sAxisTready) = true) :
    (h.next s i).lines = h.lines ++ [i.sAxisTdata] := if_pos hv

theorem next_reads_hold (hv : (s.arvalid && i.arready) = false) :
    (h.next s i).reads = h.reads := if_neg (Bool.eq_false_iff.mp hv)

theorem next_reads_take (hv : (s.arvalid && i.arready) = true) :
    (h.next s i).reads = h.reads ++ [s.araddr] := if_pos hv

theorem next_words_hold (hv : (s.icapTvalid && i.icapTready) = false) :
    (h.next s i).words = h.words := if_neg (Bool.eq_false_iff.mp hv)

theorem next_words_take (hv : (s.icapTvalid && i.icapTready) = true) :
    (h.next s i).words = h.words ++ [(s.icapTdata, s.icapTlast)] := if_pos hv

end Ports

/-- `tlast` is worked out one word ahead: two words left now is one word left next. -/
theorem words_two_beq (w : BitVec 64) : (w == 2) = (w - 1 == 1) := by
  rw [Bool.eq_iff_iff, beq_iff_eq, beq_iff_eq]
  constructor
  · intro e
    rw [e]
    rfl
  · intro e
    rw [← BitVec.sub_add_cancel w 1, e]
    rfl

/-- Only `STATE_WRITE_DATA` writes memory. -/
theorem clock_mem_hold {y : Sys slotCount} (hsg : Signals y.ctrl) (hs : y.ctrl.state ≠ .writeData)
    (i : In) : (y.clock i).mem = y.mem := by
  have hw : y.ctrl.wvalid = false := by rw [hsg.wvalid]; exact decide_eq_false hs
  show y.memNext i = y.mem
  rw [Sys.memNext, hw]
  rfl

/-- **The invariant rule for one command.** `P h y` is what holds of the system while `h` is the
    history of the command it is working on; it is set up at the edge that accepts the command
    and kept by every later edge, resets apart. -/
theorem hist_invariant {ok : Sys slotCount → In → Prop} {y1 : Sys slotCount}
    {P : Hist → Sys slotCount → Prop} (hsig : Signals y1.ctrl) (h1 : ∀ h, y1.hist = some h → P h y1)
    (hacc : ∀ (y : Sys slotCount) i, Signals y.ctrl → i.rst = false →
      accepts y.ctrl i = true → P (Hist.start i.sAxisTdata y.mem) (y.clock i))
    (hrun : ∀ (y : Sys slotCount) i h, Signals y.ctrl → ok y i → i.rst = false →
      accepts y.ctrl i = false →
      P h y → P (h.next y.ctrl i) (y.clock i))
    {y : Sys slotCount} (hr : Reachable Sys.clock ok y1 y) {h : Hist} (hh : y.hist = some h) :
    P h y := by
  have hboth : Signals y.ctrl ∧ ∀ h, y.hist = some h → P h y := by
    refine hr.invariant (P := fun y => Signals y.ctrl ∧ ∀ h, y.hist = some h → P h y)
      ⟨hsig, h1⟩ fun y i ⟨hsg, ih⟩ hi => ⟨signals_clock hsg i, fun h hh => ?_⟩
    have hh' : y.histNext i = some h := hh
    cases hrst : i.rst with
    | true => rw [histNext_rst hrst] at hh'; cases hh'
    | false =>
        cases ha : accepts y.ctrl i with
        | true =>
            rw [histNext_accept hrst ha] at hh'
            cases hh'
            exact hacc y i hsg hrst ha
        | false =>
            rw [histNext_run hrst ha] at hh'
            obtain ⟨h0, e0, rfl⟩ := Option.map_eq_some_iff.mp hh'
            exact hrun y i h0 hsg hi hrst ha (ih h0 e0)
  exact hboth.2 h hh

/-- The system after a command was taken at the edge `i0` from `y0`: anything may have come before
    that edge, the edges after it meet `ok`. -/
structure Since (ok : Sys slotCount → In → Prop) (mem : Mem 33) (y0 : Sys slotCount) (i0 : In)
    (y : Sys slotCount) : Prop where
  before : Reachable Sys.clock AnyInput (Sys.init slotCount mem) y0
  rst : i0.rst = false
  taken : accepts y0.ctrl i0 = true
  after : Reachable Sys.clock ok (y0.clock i0) y

theorem Since.reachable {ok : Sys slotCount → In → Prop} {mem : Mem 33} {y0 y : Sys slotCount}
    {i0 : In} (hs : Since ok mem y0 i0 y) :
    Reachable Sys.clock AnyInput (Sys.init slotCount mem) y :=
  (Reachable.edge y0 i0 hs.before trivial).trans (hs.after.mono fun _ _ _ => trivial)

/-- A run `is`, the edge that takes the command, a guarded run `js`. -/
theorem Since.of_run {ok : Sys slotCount → In → Prop} {mem : Mem 33} (is : List In) (i0 : In)
    (js : List In) (hrst : i0.rst = false)
    (ha : accepts (run Sys.clock (Sys.init slotCount mem) is).ctrl i0 = true)
    (hm : Meets Sys.clock ok ((run Sys.clock (Sys.init slotCount mem) is).clock i0) js) :
    Since ok mem (run Sys.clock (Sys.init slotCount mem) is) i0
      (run Sys.clock ((run Sys.clock (Sys.init slotCount mem) is).clock i0) js) where
  before := Reachable.of_run is (Meets.of_forall (fun _ _ => trivial) _ _)
  rst := hrst
  taken := ha
  after := Reachable.of_run js hm

/-- The invariant rule for a command whose surroundings behave from its acceptance on. -/
theorem Since.invariant {ok : Sys slotCount → In → Prop} {mem : Mem 33} {y0 y : Sys slotCount}
    {i0 : In} {P : Hist → Sys slotCount → Prop}
    (hacc : ∀ (y : Sys slotCount) i, Signals y.ctrl → i.rst = false →
      accepts y.ctrl i = true → P (Hist.start i.sAxisTdata y.mem) (y.clock i))
    (hrun : ∀ (y : Sys slotCount) i h, Signals y.ctrl → ok y i → i.rst = false →
      accepts y.ctrl i = false →
      P h y → P (h.next y.ctrl i) (y.clock i))
    (hs : Since ok mem y0 i0 y) {h : Hist} (hh : y.hist = some h) : P h y := by
  refine hist_invariant (signals_clock (signals_reachable hs.before) i0) (fun h1 e => ?_) hacc hrun
    hs.after hh
  have e' : y0.histNext i0 = some h1 := e
  rw [histNext_accept hs.rst hs.taken] at e'
  cases e'
  exact hacc y0 i0 (signals_reachable hs.before) hs.rst hs.taken

/-! ## 5. Concrete inputs -/

/-- Every input pin low. -/
def In.low : In where
  rst := false
  sAxisTvalid := false
  sAxisTdata := 0
  mAxisTready := false
  icapTready := false
  icapPrDone := false
  icapPrErr := false
  icapAvail := false
  awready := false
  wready := false
  bresp := 0
  bvalid := false
  arready := false
  rdata := 0
  rresp := 0
  rlast := false
  rvalid := false

/-- The command line with the given fields, every reserved bit zero. -/
def commandLine (op slot : BitVec 8) (addr size : BitVec 64) : BitVec 512 :=
  ((0 : BitVec 320) ++ size ++ addr ++ (0 : BitVec 48) ++ slot ++ op :
    BitVec (320 + 64 + 64 + 48 + 8 + 8)).cast (by decide)

/-- The edge that offers the line `t` on `s_axis`. -/
def lineEdge (t : BitVec 512) : In := { In.low with sAxisTvalid := true, sAxisTdata := t }

/-- From reset: one idle edge, then the command line `t` is offered and taken. -/
def offer (t : BitVec 512) : List In := [In.low, lineEdge t]

/-- The memory whose byte at an address is the address's lowest byte. -/
def countingMem : Mem 33 := fun x => x.setWidth 8

instance (y : Sys slotCount) (i : In) : Decidable (WritesOkay y i) :=
  inferInstanceAs (Decidable (_ → _))

instance (y : Sys slotCount) (i : In) : Decidable (ReadsOkay y i) :=
  inferInstanceAs (Decidable (_ → _ ∧ _ ∧ _))

/-- The history of the current command, of a blank one where there is none. -/
def Sys.current (y : Sys slotCount) : Hist := y.hist.getD (Hist.start 0 y.mem)

theorem hist_current {y : Sys slotCount} (h : y.hist.isSome = true) : y.hist = some y.current := by
  obtain ⟨h0, e⟩ := Option.isSome_iff_exists.mp h
  rw [Sys.current, e]
  rfl

/-- The system just after the command line `t`, offered first thing after reset, was taken. -/
def Sys.offered (mem : Mem 33) (t : BitVec 512) : Sys 2 :=
  (run Sys.clock (Sys.init 2 mem) [In.low]).clock (lineEdge t)

end Frac.Reconf
