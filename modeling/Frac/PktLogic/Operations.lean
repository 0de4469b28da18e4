/-
  File:      Frac/PktLogic/Operations.lean
  Subject:   What one controller packet does, sent alone to an idle kernel whose memory answers every
             access OKAY: the memory a write leaves, the line a read returns, the words a
             reconfiguration streams. A read also over a memory that may fail it.

  * `Feed.step` -- one clock edge with the memory's answers; `Feed.stepBy` -- with those of any memory;
  * `Underway` -- **the induction over an exchange**: what is set up when the command is taken and kept
    by every edge until the next command holds when the packet is answered (`underway_answered`);
  * `write_exchange`, `read_answered`, `reconf_exchange` -- the three operations; `read_failed`.
-/
import Frac.PktLogic.Exchange
import Frac.Reconf.Icap

namespace Frac.PktLogic

open Clocked Reassembly Reconf

variable [FifoKind] {n slotCount : Nat}

/-! ## 1. The memory answers -/

/-- The edge with the memory's answers: OKAY, RLAST, and the beat stored at the address asked for. -/
def Feed.served (y : Feed n slotCount) (i : FeedIn) : FeedIn :=
  { i with pins := { i.pins with
    bresp := 0
    rdata := y.kernel.sys.mem.beat y.kernel.sys.ar 32
    rresp := 0
    rlast := true } }

/-- One clock edge with the memory's answers. -/
def Feed.step (y : Feed n slotCount) (i : FeedIn) : Feed n slotCount := y.clock (y.served i)

/-- One clock edge with the answers of another memory. -/
def Feed.stepBy (f : Feed n slotCount → FeedIn → FeedIn) (y : Feed n slotCount) (i : FeedIn) : Feed n slotCount :=
  y.clock (f y i)

/-- A memory that answers the accesses and leaves the other pins alone. -/
structure MemAnswers (f : Feed n slotCount → FeedIn → FeedIn) : Prop where
  bresp : ∀ y i, (f y i).pins.bresp = 0
  send : ∀ y i, (f y i).send = i.send
  willing : ∀ y i, (f y i).pins.willing = i.pins.willing

theorem served_answers : MemAnswers (@Feed.served _ n slotCount) :=
  ⟨fun _ _ => rfl, fun _ _ => rfl, fun _ _ => rfl⟩

/-- The edge with the answers of a memory that may fail a read: whether a beat is OKAY and has RLAST is
    the edge's own, and a beat that is both is the one stored. -/
def Feed.faulty (y : Feed n slotCount) (i : FeedIn) : FeedIn :=
  { i with pins := { i.pins with
    bresp := 0
    rdata := if i.pins.rresp = 0 ∧ i.pins.rlast = true then y.kernel.sys.mem.beat y.kernel.sys.ar 32
      else i.pins.rdata } }

theorem faulty_answers : MemAnswers (@Feed.faulty _ n slotCount) :=
  ⟨fun _ _ => rfl, fun _ _ => rfl, fun _ _ => rfl⟩

/-- The pins of the controller at an edge. -/
def Feed.pinsAt (y : Feed n slotCount) (i : FeedIn) : In := y.kernel.ctrlIn (y.kernelIn i)

/-- The pins of the controller at an edge of `step`. -/
def Feed.pins (y : Feed n slotCount) (i : FeedIn) : In := y.kernel.ctrlIn (y.kernelIn (y.served i))

theorem faulty_stored (y : Feed n slotCount) (i : FeedIn) :
    ReadsStored y.kernel.sys (y.pinsAt (y.faulty i)) :=
  fun _ hresp hlast => if_pos ⟨hresp, hlast⟩

theorem clock_sys (y : Feed n slotCount) (i : FeedIn) :
    (y.clock i).kernel.sys = y.kernel.sys.clock (y.pinsAt i) := rfl

/-- A memory that answers every access OKAY. -/
def MemOkay (z : Sys slotCount) (i : In) : Prop := WritesOkay z i ∧ ReadsOkay z i

theorem pins_okay (y : Feed n slotCount) (i : FeedIn) : MemOkay y.kernel.sys (y.pins i) :=
  ⟨fun _ => rfl, fun _ => ⟨rfl, rfl, rfl⟩⟩

/-- The line the controller takes at an edge. -/
def lineAt (s : Ctrl slotCount) (i : In) : List (BitVec 512) :=
  if i.sAxisTvalid && s.sAxisTready then [i.sAxisTdata] else []

theorem clock_accepted (y : Feed n slotCount) (i : FeedIn) :
    (y.clock i).accepted = y.accepted ++ lineAt y.kernel.sys.ctrl (y.pinsAt i) := rfl

/-! ## 2. An exchange -/

/-- **An exchange under way.** Before the command is taken the memory is `m`; from then on `P` holds of
    the payload lines taken and the controller's surroundings; a response that has left is still in the
    data register. -/
structure Underway (P : List (BitVec 512) → Sys slotCount → Prop) (m : Mem 33) (p : Packet slotCount)
    (y : Feed n slotCount) : Prop where
  course : Course p y
  before : y.accepted = [] → y.kernel.sys.mem = m
  after : ∀ lines, y.accepted = p.command :: lines → P lines y.kernel.sys
  resp : ∀ x ∈ y.answered, x.2 = .line y.kernel.sys.ctrl.mAxisTdata

section Underway

variable {P : List (BitVec 512) → Sys slotCount → Prop} {m : Mem 33} {p : Packet slotCount}

theorem underway_start {k : Kernel n slotCount} (hk : k.Idle) (hm : k.sys.mem = m) :
    Underway P m p (Feed.start k p.lines) where
  course := course_start hk p
  before _ := hm
  after _ e := by cases e
  resp _ hx := by cases hx

/-- What has been taken is the command and lines behind it; before that, the controller is idle. -/
theorem course_accepted (hx : p.Exact) {y : Feed n slotCount} (h : Course p y) :
    (y.accepted = [] ∧ y.kernel.sys.ctrl.state = .idle ∧ y.answered = []) ∨
      ∃ lines, y.accepted = p.command :: lines := by
  obtain ⟨bs, cur, qs, vs, hst⟩ := h.story
  cases alone_of_story hx.controller hst with
  | fresh hidle _ _ hacc hans => exact Or.inl ⟨hacc, hidle, hans⟩
  | opened hidle _ _ _ hacc hans => exact Or.inl ⟨hacc, hidle, hans⟩
  | busy j _ _ _ _ hacc => exact Or.inr ⟨_, hacc⟩
  | done j r _ _ hacc => exact Or.inr ⟨_, hacc⟩

/-- Once its command is taken, the packet brings no other. -/
theorem course_accepts (hx : p.Exact) {y : Feed n slotCount} (h : Course p y)
    (hne : y.accepted ≠ []) (i : FeedIn) : accepts y.kernel.sys.ctrl (y.pinsAt i) = false := by
  obtain ⟨bs, cur, qs, vs, hst⟩ := h.story
  cases alone_of_story hx.controller hst with
  | fresh _ _ _ hacc => exact absurd hacc hne
  | opened _ _ _ _ hacc => exact absurd hacc hne
  | busy j hb => rw [accepts, decide_eq_false hb.not_idle]; rfl
  | done j r _ hidle _ hans =>
      obtain ⟨-, -, -, -, hseen⟩ := h.done (by rw [hans]; exact List.cons_ne_nil _ _)
      rw [accepts_idle hidle, show (y.pinsAt i).sAxisTvalid = y.kernel.forwardLine from rfl,
        forward_unseen hseen]
      rfl

/-- A response that leaves stands in the data register, and stays there. -/
theorem underway_resp (hx : p.Exact) {y : Feed n slotCount} (h : Underway P m p y) (i : FeedIn) :
    ∀ x ∈ (y.clock i).answered, x.2 = .line (y.clock i).kernel.sys.ctrl.mAxisTdata := by
  obtain ⟨bs, cur, qs, vs, hst⟩ := h.course.story
  have hans : (y.clock i).answered =
      y.answered ++ (responseTaken y.kernel.sys.ctrl (y.pinsAt i)).map fun r => (y.kernel.flags.txMeta, r) :=
    rfl
  obtain ⟨s', hs', hmv⟩ := clock_move y.kernel.sys (show (y.pinsAt i).rst = false from rfl)
  intro x hmem
  rw [clock_sys, hs']
  rw [hans] at hmem
  rcases List.mem_append.mp hmem with hmem | hmem
  · -- the response has left before
    have hne : y.answered ≠ [] := List.ne_nil_of_mem hmem
    have hacc : y.accepted ≠ [] := by
      rw [(h.course.done hne).1]
      exact List.cons_ne_nil _ _
    have hidle : y.kernel.sys.ctrl.state = .idle := (exchange_answered hx h.course hne).2.2.state
    obtain ⟨-, hdata⟩ := move_answered hmv (course_accepts hx h.course hacc i) (c := .sendStatus) rfl
      (Or.inr hidle)
    rw [h.resp x hmem, hdata]
  · obtain ⟨r, hr, rfl⟩ := List.mem_map.mp hmem
    unfold responseTaken at hr
    split at hr
    · rename_i hv
      have hsends : y.kernel.sys.ctrl.state.sends = true := by
        rw [← hst.signals.mAxisTvalid]
        exact (Bool.and_eq_true_iff.mp hv).1
      have hdata : s'.mAxisTdata = y.kernel.sys.ctrl.mAxisTdata := by
        rcases move_sends hmv hsends with ⟨-, rfl⟩ | ⟨-, rfl⟩ <;> rfl
      rw [List.mem_singleton.mp hr, hdata]
      exact hst.framed hsends
    · cases hr

/-- **One edge of an exchange**, over a memory that meets `G`. -/
theorem underway_clock (hx : p.Exact) {G : Sys slotCount → In → Prop}
    (hstart : ∀ {z : Sys slotCount} {i : In}, Signals z.ctrl → i.rst = false →
      accepts z.ctrl i = true → i.sAxisTdata = p.command → z.mem = m → P [] (z.clock i))
    (hedge : ∀ {lines : List (BitVec 512)} {z : Sys slotCount} {i : In}, P lines z →
      Signals z.ctrl → i.rst = false → accepts z.ctrl i = false → G z i → P (lines ++ lineAt z.ctrl i) (z.clock i))
    {y : Feed n slotCount} (h : Underway P m p y) {i : FeedIn} (hb : i.pins.bresp = 0)
    (hG : G y.kernel.sys (y.pinsAt i)) : Underway P m p (y.clock i) := by
  have hcourse : Course p (y.clock i) := course_edge hx h.course hb
  obtain ⟨bs, cur, qs, vs, hst⟩ := h.course.story
  have hacc := clock_accepted y i
  refine ⟨hcourse, fun hnil => ?_, fun lines hlines => ?_, underway_resp hx h i⟩
  · -- no command yet
    rw [hacc] at hnil
    obtain ⟨hnil, -⟩ := List.append_eq_nil_iff.mp hnil
    rcases course_accepted hx h.course with ⟨-, hidle, -⟩ | ⟨lines, hlines⟩
    · rw [clock_sys, clock_mem_hold hst.signals (by rw [hidle]; decide), h.before hnil]
    · rw [hlines] at hnil
      cases hnil
  · rw [clock_sys]
    rcases course_accepted hx h.course with ⟨hnil, hidle, -⟩ | ⟨lines', hlines'⟩
    · -- the edge takes the command
      rw [hacc, hnil, List.nil_append] at hlines
      cases hv : (y.pinsAt i).sAxisTvalid && y.kernel.sys.ctrl.sAxisTready with
      | false =>
          rw [lineAt, hv] at hlines
          cases hlines
      | true =>
          rw [lineAt, hv, if_pos rfl] at hlines
          obtain ⟨hdata, rfl⟩ := List.cons.inj hlines
          exact hstart hst.signals rfl (accepts_iff.mpr ⟨hidle, hv⟩) hdata (h.before hnil)
    · have hne : y.accepted ≠ [] := by
        rw [hlines']
        exact List.cons_ne_nil _ _
      rw [hacc, hlines', List.cons_append] at hlines
      obtain rfl := (List.cons.inj hlines).2
      exact hedge (h.after _ hlines') hst.signals rfl (course_accepts hx h.course hne i)
        hG

/-- **What an answered exchange leaves**: one response, that of the data register; an idle kernel; and
    `P` of the packet's own lines. -/
theorem underway_answered (hx : p.Exact) {y : Feed n slotCount} (h : Underway P m p y)
    (hne : y.answered ≠ []) :
    y.answered = [(⟨64, p.session⟩, .line y.kernel.sys.ctrl.mAxisTdata)] ∧ y.kernel.Idle ∧
      P p.extra y.kernel.sys := by
  obtain ⟨hacc, ⟨r, hans⟩, hidle⟩ := exchange_answered hx h.course hne
  have hr := h.resp _ (by rw [hans]; exact List.mem_singleton_self _)
  exact ⟨by rw [hans, ← hr], hidle, h.after _ hacc⟩

theorem underway_run (hx : p.Exact) {G : Sys slotCount → In → Prop}
    (hstart : ∀ {z : Sys slotCount} {i : In}, Signals z.ctrl → i.rst = false →
      accepts z.ctrl i = true → i.sAxisTdata = p.command → z.mem = m → P [] (z.clock i))
    (hedge : ∀ {lines : List (BitVec 512)} {z : Sys slotCount} {i : In}, P lines z →
      Signals z.ctrl → i.rst = false → accepts z.ctrl i = false → G z i → P (lines ++ lineAt z.ctrl i) (z.clock i))
    {f : Feed n slotCount → FeedIn → FeedIn} (hf : MemAnswers f) {w : List FeedIn}
    (hG : ∀ i ∈ w, ∀ y : Feed n slotCount, G y.kernel.sys (y.pinsAt (f y i)))
    {k : Kernel n slotCount} (hk : k.Idle) (hm : k.sys.mem = m) :
    Underway P m p (run (Feed.stepBy f) (Feed.start k p.lines) w) :=
  run_meets (P := Underway P m p) (fun y i h hi => underway_clock hx hstart hedge h (hf.bresp y i) (hi y))
    (underway_start hk hm) w (Meets.of_mem hG)

end Underway

/-! ## 3. In time -/

/-- The lines still to arrive. -/
theorem todo_run {f : Feed n slotCount → FeedIn → FeedIn} (hf : MemAnswers f) (y : Feed n slotCount)
    (is : List FeedIn) : (run (Feed.stepBy f) y is).todo = y.todo.drop (is.countP (·.send)) := by
  induction is generalizing y with
  | nil => rfl
  | cons i is ih =>
      rw [run_cons, ih, List.countP_cons]
      show (if (f y i).send then y.todo.tail else y.todo).drop _ = _
      rw [hf.send]
      cases i.send with
      | false => rfl
      | true => rw [if_pos rfl, if_pos rfl, List.drop_tail]

/-- **Enough time for a packet**: its lines arrive, and then nothing is held back for as many edges as
    its command can take. -/
def Timely (p : Packet slotCount) (w : List FeedIn) : Prop :=
  ∃ is js, w = is ++ js ∧ p.lines.length ≤ is.countP (·.send) ∧
    (Command.ofLine p.command).rankBound + 4 + FifoKind.latency ≤ js.countP (·.pins.willing)

theorem exchange_timely {p : Packet slotCount} (hx : p.Exact) {k : Kernel n slotCount} (hk : k.Idle)
    {f : Feed n slotCount → FeedIn → FeedIn} (hf : MemAnswers f) {w : List FeedIn} (hw : Timely p w) :
    (run (Feed.stepBy f) (Feed.start k p.lines) w).answered ≠ [] := by
  obtain ⟨is, js, rfl, hsent, henough⟩ := hw
  have hrun : ∀ (y : Feed n slotCount) ks,
      run (Feed.stepBy f) y ks = run Feed.clock y (driven Feed.clock f y ks) := fun y ks =>
    (run_driven Feed.clock f y ks).symm
  have harrived : (run (Feed.stepBy f) (Feed.start k p.lines) is).todo = [] := by
    rw [todo_run hf]
    exact List.drop_eq_nil_of_le hsent
  rw [hrun] at harrived
  rw [hrun, driven_append]
  refine exchange_done hk hx _ _ (fun i hi => ?_) harrived ?_
  · rw [← driven_append] at hi
    obtain ⟨y, j, rfl⟩ := mem_driven hi
    exact hf.bresp y j
  · rw [countP_driven (f := f) (w := fun i => i.pins.willing) hf.willing]
    exact henough

/-! ## 4. The three operations -/

section Operations

variable {p : Packet slotCount} {k : Kernel n slotCount}

omit [FifoKind] in
/-- The history of the command under way. -/
theorem hist_edge {z : Sys slotCount} {i : In} {h : Hist} (hh : z.hist = some h)
    (hrst : i.rst = false) (ha : accepts z.ctrl i = false) :
    (z.clock i).hist = some (h.next z.ctrl i) := by
  show z.histNext i = _
  rw [histNext_run hrst ha, hh]
  rfl

omit [FifoKind] in
theorem next_lines (h : Hist) (s : Ctrl slotCount) (i : In) :
    (h.next s i).lines = h.lines ++ lineAt s i := by
  show (if i.sAxisTvalid && s.sAxisTready then h.lines ++ [i.sAxisTdata] else h.lines) = _
  rw [lineAt]
  split
  · rfl
  · exact (List.append_nil _).symm

/-- A write under way: its history, with the lines taken, and its phase. -/
def Writing (t : BitVec 512) (m : Mem 33) (lines : List (BitVec 512)) (z : Sys slotCount) : Prop :=
  ∃ h, z.hist = some h ∧ h.cmd = t ∧ h.mem0 = m ∧ h.lines = lines ∧ WritePhase h z

/-- **A write that is answered is answered ERR_OK, and the memory holds its payload.** -/
theorem write_exchange (hx : p.Exact) (hk : k.Idle)
    (he : Executes slotCount p.command opWriteHbm) {w : List FeedIn} {y : Feed n slotCount}
    (hy : y = run Feed.step (Feed.start k p.lines) w) (hne : y.answered ≠ []) :
    y.answered = [(⟨64, p.session⟩, .status .ok)] ∧ y.kernel.Idle ∧
      y.kernel.sys.mem = k.sys.mem.store ((cmdAddr p.command).setWidth 33) (payload p.extra)
        (cmdSize p.command).toNat := by
  have hrun : Underway (Writing p.command k.sys.mem) k.sys.mem p y := by
    rw [hy]
    refine underway_run (G := MemOkay) hx ?_ ?_ served_answers (fun i _ y => pins_okay y i) hk rfl
    · intro z i hsg hrst ha hcmd hm
      have hph := writePhase_accept hsg hrst ha (by rw [hcmd]; exact he)
      exact ⟨_, histNext_accept hrst ha, hcmd, hm, rfl, hph⟩
    · rintro lines z i ⟨h, hh, hcmd, hm, hl, hph⟩ hsg hrst ha ⟨hw, -⟩
      exact ⟨_, hist_edge hh hrst ha, hcmd, hm, by rw [next_lines, hl], writePhase_edge hsg hrst hw ha hph⟩
  obtain ⟨hans, hidle, h, hh, hcmd, hm, hl, hph⟩ := underway_answered hx hrun hne
  have hs := hidle.state
  cases hph with
  | wait e | addr _ e | data _ e | resp _ e => rw [hs] at e; cases e
  | done _ hw _ hd =>
      refine ⟨by rw [hans, hd]; rfl, hidle, ?_⟩
      rw [show y.kernel.sys.mem = _ from hw, hm, hl, hcmd, Hist.addr, hcmd]

/-- A memory whose good beats are the stored ones, and whose beats all meet `B`. -/
def BeatsMeet (B : Beat → Prop) (z : Sys slotCount) (i : In) : Prop :=
  ReadsStored z i ∧ ((i.rvalid && z.ctrl.rready) = true → B ⟨i.rdata, i.rresp, i.rlast⟩)

/-- A memory that answers OKAY has good beats only. -/
theorem pins_good (y : Feed n slotCount) (i : FeedIn) :
    BeatsMeet (·.error = none) y.kernel.sys (y.pins i) :=
  ⟨fun _ _ _ => rfl, fun _ => beat_good rfl rfl⟩

/-- A read under way, its beats all meeting `B`. -/
def Fetching (B : Beat → Prop) (t : BitVec 512) (m : Mem 33) (z : Sys slotCount) : Prop :=
  ∃ (y : Sys slotCount) (beats : List Beat), y.mem = m ∧ Reading y t z beats ∧ ∀ b ∈ beats, B b

section Reads

variable {f : Feed n slotCount → FeedIn → FeedIn} {w : List FeedIn} {y : Feed n slotCount}

/-- **What a read answers**, over a memory that may fail it: the bytes stored, or the status of a beat
    that failed. It changes nothing. -/
theorem read_answered {B : Beat → Prop} (hx : p.Exact) (hk : k.Idle)
    (he : Executes slotCount p.command opReadHbm) (hf : MemAnswers f)
    (hB : ∀ i ∈ w, ∀ y : Feed n slotCount, BeatsMeet B y.kernel.sys (y.pinsAt (f y i)))
    (hy : y = run (Feed.stepBy f) (Feed.start k p.lines) w) (hne : y.answered ≠ []) :
    ∃ d, y.answered = [(⟨64, p.session⟩, .line d)] ∧ y.kernel.Idle ∧ y.kernel.sys.mem = k.sys.mem ∧
      (ReadBytes k.sys.mem ((cmdAddr p.command).setWidth 33) (cmdSize p.command).toNat d ∨
        ∃ b e, B b ∧ b.error = some e ∧ d = e.code.setWidth 512) := by
  have hrun : Underway (fun _ => Fetching B p.command k.sys.mem) k.sys.mem p y := by
    rw [hy]
    refine underway_run (G := BeatsMeet B) hx ?_ ?_ hf hB hk rfl
    · intro z i hsg hrst ha hcmd hm
      have hread := reading_start hsg hrst ha (by rw [hcmd]; exact he)
      rw [hcmd] at hread
      exact ⟨z, [], hm, hread, by simp⟩
    · rintro lines z i ⟨y, beats, hm, hread, hb⟩ hsg hrst ha ⟨hstored, hmeet⟩
      refine ⟨y, _, hm, reading_edge he hread ⟨⟨hrst, ha⟩, hstored⟩, fun b hmem => ?_⟩
      rcases List.mem_append.mp hmem with hmem | hmem
      · exact hb b hmem
      · unfold beatTaken at hmem
        split at hmem
        · rename_i hv
          rw [List.mem_singleton.mp hmem]
          exact hmeet hv
        · cases hmem
  obtain ⟨hans, hidle, y0, beats, hm, hread, hb⟩ := underway_answered hx hrun hne
  have hs := hidle.state
  obtain ⟨h, -, hcmd, hph⟩ := hread.phase
  refine ⟨_, hans, hidle, hread.frame.mem.trans hm, ?_⟩
  cases hph with
  | addr0 e | data0 e | addr1 e | data1 e => rw [hs] at e; cases e
  | sent _ hd =>
      rw [hm, hcmd, Hist.addr, hcmd] at hd
      exact Or.inl hd
  | failed e _ hd hbad =>
      obtain ⟨b, hmem, hbe⟩ := hbad
      exact Or.inr ⟨b, e, hb b hmem, hbe, hd⟩

/-- A read of which every beat fails with `e`: the first is awaited, or the status is sent. -/
def Failing (e : Err) (z : Sys slotCount) : Prop :=
  z.ctrl.state = .readAddr0 ∨ z.ctrl.state = .readData0 ∨
    ((z.ctrl.state = .sendStatus ∨ z.ctrl.state = .idle) ∧ z.ctrl.mAxisTdata = e.code.setWidth 512)

/-- Every beat fails with `e`. -/
def BeatsFail (e : Err) (z : Sys slotCount) (i : In) : Prop :=
  (i.rvalid && z.ctrl.rready) = true → (⟨i.rdata, i.rresp, i.rlast⟩ : Beat).error = some e

omit [FifoKind] in
theorem failing_edge {e : Err} {z : Sys slotCount} {i : In} (h : Failing e z) (hrst : i.rst = false)
    (ha : accepts z.ctrl i = false) (hfail : BeatsFail e z i) : Failing e (z.clock i) := by
  obtain ⟨s', hs', hm⟩ := clock_move z hrst
  rw [Failing, hs']
  rcases h with hs | hs | ⟨hs, hd⟩
  · cases hm
    case holdAr => exact Or.inl hs
    case takeAr addr next ho _ =>
      have hnext : next = .readData0 := by simp_all
      exact Or.inr (Or.inl hnext)
    all_goals simp_all
  · cases hm
    case holdR => exact Or.inr (Or.inl hs)
    case errR ho hv e' hbad =>
      have he : e' = e := Option.some.inj ((beat_bad hbad).symm.trans (hfail hv))
      exact Or.inr (Or.inr ⟨Or.inl rfl, by rw [← he]; rfl⟩)
    case read0More ho hv h1 h2 _ =>
      have hgood := (beat_good h1 h2).symm.trans (hfail hv)
      cases hgood
    case read0Send ho hv h1 h2 _ =>
      have hgood := (beat_good h1 h2).symm.trans (hfail hv)
      cases hgood
    all_goals simp_all
  · obtain ⟨hst, hdata⟩ := move_answered hm ha rfl hs
    exact Or.inr (Or.inr ⟨hst, hdata.trans hd⟩)

/-- **A read of which every beat fails is answered the status.** -/
theorem read_failed {e : Err} (hx : p.Exact) (hk : k.Idle)
    (he : Executes slotCount p.command opReadHbm) (hf : MemAnswers f)
    (hfail : ∀ i ∈ w, ∀ y : Feed n slotCount, BeatsFail e y.kernel.sys (y.pinsAt (f y i)))
    (hy : y = run (Feed.stepBy f) (Feed.start k p.lines) w) (hne : y.answered ≠ []) :
    y.answered = [(⟨64, p.session⟩, .status e)] := by
  have hrun : Underway (fun _ => Failing e) k.sys.mem p y := by
    rw [hy]
    refine underway_run (G := BeatsFail e) hx ?_ ?_ hf hfail hk rfl
    · intro z i hsg hrst ha hcmd _
      rcases clock_executes hrst ha (by rw [hcmd]; exact he) with ⟨h, -⟩ | ⟨-, hc⟩ | ⟨h, -⟩
      · exact absurd h (by decide)
      · exact Or.inl (by rw [hc]; rfl)
      · exact absurd h (by decide)
    · exact fun h _ hrst ha hfail => failing_edge h hrst ha hfail
  obtain ⟨hans, hidle, hfailing⟩ := underway_answered hx hrun hne
  have hs := hidle.state
  rcases hfailing with h | h | ⟨-, hd⟩
  · rw [hs] at h; cases h
  · rw [hs] at h; cases h
  · rw [hans, hd]
    rfl

end Reads

/-- A reconfiguration under way. -/
def Streaming (t : BitVec 512) (m : Mem 33) (z : Sys slotCount) : Prop :=
  ∃ h, z.hist = some h ∧ h.cmd = t ∧ h.mem0 = m ∧ IcapPhase h z

/-- **A reconfiguration that is answered has streamed its bitstream**, and leaves the memory as it is. -/
theorem reconf_exchange (hx : p.Exact) (hk : k.Idle)
    (he : Executes slotCount p.command opReconfIcap) {w : List FeedIn} {y : Feed n slotCount}
    (hy : y = run Feed.step (Feed.start k p.lines) w) (hne : y.answered ≠ []) :
    (∃ d, y.answered = [(⟨64, p.session⟩, .line d)]) ∧ y.kernel.Idle ∧
      y.kernel.sys.mem = k.sys.mem ∧
      ∃ h, y.kernel.sys.hist = some h ∧ h.cmd = p.command ∧ h.mem0 = k.sys.mem ∧
        h.words = h.bitstream := by
  have hrun : Underway (fun _ => Streaming p.command k.sys.mem) k.sys.mem p y := by
    rw [hy]
    refine underway_run (G := MemOkay) hx ?_ ?_ served_answers (fun i _ y => pins_okay y i) hk rfl
    · intro z i hsg hrst ha hcmd hm
      have hph := icapPhase_accept hsg hrst ha (by rw [hcmd]; exact he)
      exact ⟨_, histNext_accept hrst ha, hcmd, hm, hph⟩
    · rintro lines z i ⟨h, hh, hcmd, hm, hph⟩ hsg hrst ha ⟨-, hr⟩
      exact ⟨_, hist_edge hh hrst ha, hcmd, hm, icapPhase_edge hsg hrst hr ha hph⟩
  obtain ⟨hans, hidle, h, hh, hcmd, hm, hph⟩ := underway_answered hx hrun hne
  have hs := hidle.state
  cases hph with
  | addr _ e | data _ e | stream _ _ e => rw [hs] at e; cases e
  | sent _ hc => exact ⟨⟨_, hans⟩, hidle, hc.mem.trans hm, h, hh, hcmd, hm, hc.words⟩

end Operations

end Frac.PktLogic
