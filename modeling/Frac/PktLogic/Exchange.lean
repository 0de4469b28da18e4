/-
  File:      Frac/PktLogic/Exchange.lean
  Subject:   One controller packet sent alone to an idle kernel, with exactly the lines its command
             needs: it is taken whole, answered once and in time, and the kernel is idle again.

  * `Alone` -- how far the packet has come (`alone_of_story`);
  * `Course` -- the run so far: what has been answered is settled (`course_edge`);
  * `Feed.work` -- the willing edges it can still take; `exchange_done` -- **after that many it is
    answered**; `exchange_answered` -- **what an answered packet leaves**: one response, and an idle
    kernel.
-/
import Frac.PktLogic.Packets

namespace Frac.PktLogic

open Clocked Reassembly Reconf

variable {n slotCount : Nat}

/-! ## 1. The only packet -/

theorem length_beatsOf (p : Packet slotCount) (ts : List (BitVec 512)) :
    (p.beatsOf ts).length = ts.length := by
  induction ts with
  | nil => rfl
  | cons t ts ih => rw [beatsOf_cons, List.length_cons, ih, List.length_cons]

/-- No beat of another workload is behind a controller packet that is alone. -/
theorem nothing_else {p : Packet slotCount} (hp : p.isController = true) {bs : List (RxBeat Unit)}
    (hsub : ∀ b ∈ bs, b ∈ p.beats) (hw : ∀ b ∈ bs, b.workload ≠ reconfApp) : bs = [] := by
  cases bs with
  | nil => rfl
  | cons b bs =>
      have hb : b.workload = lineWorkload p.header := mem_beatsOf p _ (hsub b (List.mem_cons_self ..))
      exact absurd (hb.trans (isController_iff.mp hp)) (hw b (List.mem_cons_self ..))

/-- Beats of application packets are for the scheduler. -/
theorem beats_application {qs : List (Packet slotCount)} (h : controllers qs = []) :
    ∀ b ∈ qs.flatMap Packet.beats, b.workload ≠ reconfApp := by
  intro b hb
  obtain ⟨q, hq, hb⟩ := List.mem_flatMap.mp hb
  have hno := List.filter_eq_nil_iff.mp h q hq
  rw [mem_beatsOf q _ hb]
  exact fun e => hno (isController_iff.mpr e)

variable [FifoKind]

/-- **How far a packet that is alone has come.** `bs` are the beats of the lines still to arrive. -/
inductive Alone (p : Packet slotCount) (y : Feed n slotCount) (bs : List (RxBeat Unit)) : Prop where
  | fresh (hidle : y.kernel.sys.ctrl.state = .idle) (hseen : y.kernel.flags.seenHeader = false)
      (hstream : y.kernel.front.disp.inflight ++ bs = p.beats) (hacc : y.accepted = [])
      (hans : y.answered = [])
  | opened (hidle : y.kernel.sys.ctrl.state = .idle) (hseen : y.kernel.flags.seenHeader = true)
      (hdrain : y.kernel.flags.drainPacket = false)
      (hstream : y.kernel.front.disp.inflight ++ bs = p.beatsOf p.rest) (hacc : y.accepted = [])
      (hans : y.answered = [])
  | busy (j : Nat) (hb : Busy p.command j y.kernel.sys.ctrl)
      (hseen : y.kernel.flags.seenHeader = decide (j < p.extra.length))
      (hdrain : j < p.extra.length → y.kernel.flags.drainPacket = false)
      (hstream : y.kernel.front.disp.inflight ++ bs = p.beatsOf (p.extra.drop j))
      (hacc : y.accepted = p.command :: p.extra.take j) (hans : y.answered = [])
  | done (j : Nat) (r : Resp) (hj : j ≤ payloadLines slotCount p.command)
      (hidle : y.kernel.sys.ctrl.state = .idle)
      (hacc : y.accepted = p.command :: p.extra.take j)
      (hans : y.answered = [(⟨64, p.session⟩, r)])

theorem alone_of_story {p : Packet slotCount} (hp : p.isController = true) {y : Feed n slotCount}
    {bs : List (RxBeat Unit)} {cur : Stage slotCount} {qs : List (Packet slotCount)}
    {vs : List (Visit slotCount)} (h : Story [p] y bs cur qs vs) : Alone p y bs := by
  have hpk := h.packets
  have hacc := h.accepted
  have hans := h.answered
  have hstream := h.stream
  have hphase := h.phase
  rw [List.flatMap_cons, List.flatMap_nil, List.append_nil] at hstream
  rw [controllers, List.filter_cons, if_pos hp, List.filter_nil] at hpk
  generalize hrest : y.kernel.front.disp.inflight ++ bs = rest at hphase hstream
  have hsub : ∀ b ∈ rest, b ∈ p.beats := fun b hb => by
    rw [← hstream]
    exact List.mem_append_right _ hb
  -- behind the packet's own beats the stream has nothing
  have hlast : ∀ {as : List (RxBeat Unit)}, rest = as ++ qs.flatMap Packet.beats →
      controllers qs = [] → qs.flatMap Packet.beats = [] := fun e hq =>
    nothing_else hp (fun b hb => hsub b (by rw [e]; exact List.mem_append_right _ hb))
      (beats_application hq)
  cases vs with
  | cons v vs =>
      obtain ⟨hv, hnil⟩ := List.cons.inj hpk
      obtain ⟨hvs, hcur⟩ := List.append_eq_nil_iff.mp hnil.symm
      obtain rfl := List.map_eq_nil_iff.mp hvs
      have hcur' := (List.append_eq_nil_iff.mp hcur).1
      cases cur with
      | opened p => cases hcur'
      | busy p j => cases hcur'
      | none =>
          refine .done v.lines v.resp ?_ ((phase_idle h.phase).mpr rfl) ?_ ?_
          · rw [hv]
            exact (h.legal v (List.mem_cons_self ..)).1
          · rw [hacc, hv]
            simp [Stage.taken, Visit.taken]
          · rw [hans, hv]
            rfl
  | nil =>
      rw [List.map_nil, List.nil_append] at hpk
      cases cur with
      | none =>
          have hmem : p ∈ qs := (List.mem_filter.mp (show p ∈ controllers qs by
            rw [← show [p] = controllers qs from hpk]; exact List.mem_singleton_self p)).1
          have hlong : p.beats.length ≤ (qs.flatMap Packet.beats).length := by
            rw [List.flatMap_def]
            exact (List.sublist_flatten_of_mem (List.mem_map.mpr ⟨p, hmem, rfl⟩)).length_le
          have hlen := congrArg List.length hstream
          rw [List.length_append] at hlen
          generalize hcur : Stage.none = cur at hphase
          cases hphase with
          | apart cur as qs hseen has hc =>
              subst hcur
              rw [List.length_append] at hlen
              obtain hnil : y.handed = [] := List.length_eq_zero_iff.mp (by omega)
              rw [hnil, List.nil_append] at hstream
              exact .fresh hc hseen (hrest.trans hstream) hacc hans
          | opened | inside => cases hcur
          | draining p' d qs hp' hseen hdrain hidle hd =>
              rw [List.length_append, length_beatsOf, List.length_drop] at hlen
              omega
      | opened p' =>
          obtain ⟨rfl, hq⟩ := List.cons.inj (show [p] = p' :: controllers qs from hpk)
          generalize hcur : Stage.opened p = cur at hphase
          cases hphase with
          | apart cur as qs hseen has hc => subst hcur; exact hc.elim
          | opened p' qs hp' hseen hdrain hidle hmeta =>
              cases hcur
              rw [hlast rfl hq.symm, List.append_nil] at hrest
              exact .opened hidle hseen hdrain hrest hacc hans
          | inside | draining => cases hcur
      | busy p' j =>
          obtain ⟨rfl, hq⟩ := List.cons.inj (show [p] = p' :: controllers qs from hpk)
          generalize hcur : Stage.busy p j = cur at hphase
          cases hphase with
          | apart cur as qs hseen has hc =>
              subst hcur
              obtain ⟨hb, -, hj⟩ := hc
              have hnil : as ++ qs.flatMap Packet.beats = [] := by
                rw [hlast rfl hq.symm, List.append_nil]
                exact nothing_else hp (fun b hb => hsub b (List.mem_append_left _ hb)) has
              refine .busy j hb (by rw [hseen]; simp [hj]) (fun e => by omega) ?_ hacc hans
              rw [hrest, hnil, hj, List.drop_length]
              rfl
          | inside p' j qs hp' hseen hdrain hb hmeta hj =>
              cases hcur
              rw [hlast rfl hq.symm, List.append_nil] at hrest
              exact .busy j hb (by rw [hseen, decide_eq_true hj]) (fun _ => hdrain) hrest hacc hans
          | opened | draining => cases hcur

/-! ## 2. The run so far -/

/-- **A controller packet with exactly the lines its command needs**, short enough for the
    dispatcher's FIFO. -/
structure Packet.Exact (p : Packet slotCount) : Prop where
  controller : p.isController = true
  extra : p.extra.length = payloadLines slotCount p.command
  short : p.rest.length < fifoDepth

theorem Packet.Exact.rest {p : Packet slotCount} (h : p.Exact) : p.rest = p.command :: p.extra := by
  have hne := (p.body (isController_iff.mp h.controller)).1
  unfold Packet.command Packet.extra
  cases hr : p.rest with
  | nil => exact absurd hr hne
  | cons t ts => rfl

/-- The run of one packet: a response about to leave, or gone, has the whole packet behind it. -/
structure Course (p : Packet slotCount) (y : Feed n slotCount) : Prop where
  story : ∃ bs cur qs vs, Story [p] y bs cur qs vs
  sends : y.kernel.sys.ctrl.state.sends = true → y.accepted = p.command :: p.extra
  rank : y.kernel.sys.ctrl.rank ≤ (Command.ofLine p.command).rankBound
  done : y.answered ≠ [] → y.accepted = p.command :: p.extra ∧ y.todo = [] ∧
    y.kernel.front.disp.inflight = [] ∧ y.kernel.front.disp.expectingHeader = true ∧
    y.kernel.flags.seenHeader = false

theorem course_start {k : Kernel n slotCount} (h : k.Idle) (p : Packet slotCount) :
    Course p (Feed.start k p.lines) where
  story := by
    have hst := story_start h [p]
    rw [List.flatMap_singleton] at hst
    exact ⟨_, _, _, _, hst⟩
  sends e := by
    rw [show (Feed.start k p.lines).kernel.sys.ctrl.state = .idle from h.state] at e
    cases e
  rank := by
    rw [Ctrl.rank, show (Feed.start k p.lines).kernel.sys.ctrl.state = .idle from h.state]
    exact Nat.zero_le _
  done e := absurd rfl e

/-- A packet that is alone fits the dispatcher's FIFO. -/
theorem story_fits {p : Packet slotCount} (hp : p.rest.length < fifoDepth) {y : Feed n slotCount}
    {bs : List (RxBeat Unit)} {cur : Stage slotCount} {qs : List (Packet slotCount)}
    {vs : List (Visit slotCount)} (h : Story [p] y bs cur qs vs) : y.Fits := by
  intro ho
  have hlen := congrArg List.length h.stream
  have hone : y.kernel.front.disp.offered.toList.length = 1 := by
    obtain ⟨b, hb⟩ := Option.isSome_iff_exists.mp ho
    rw [hb]
    rfl
  rw [List.flatMap_singleton, Packet.beats, length_beatsOf, Disp.inflight, List.length_append,
    List.length_append, List.length_append, List.length_cons, hone] at hlen
  exact Fifo.tready_iff.mpr (by omega)

/-- Nothing is left to arrive when no beat is left to come. -/
theorem ahead_nil {d : Disp Unit} {ls : List (DispLine Unit)} {bs : List (RxBeat Unit)}
    (h : Ahead slotCount d ls bs) : (ls = [] ↔ bs = []) ∧ (bs = [] → d.expectingHeader = true) := by
  cases h with
  | between qs he =>
      refine ⟨?_, fun _ => he⟩
      cases qs with
      | nil => exact iff_of_true rfl rfl
      | cons q qs =>
          rw [List.flatMap_cons, List.flatMap_cons, Packet.lines, Packet.beats, linesOf_cons,
            beatsOf_cons]
          exact iff_of_false (List.cons_ne_nil _ _) (List.cons_ne_nil _ _)
  | inside p ts qs hne =>
      cases ts with
      | nil => exact absurd rfl hne
      | cons t ts =>
          rw [linesOf_cons, beatsOf_cons]
          exact ⟨iff_of_false (List.cons_ne_nil _ _) (List.cons_ne_nil _ _), fun e => by cases e⟩

/-- A kernel with nothing in it and nothing to arrive stays so. -/
theorem quiet_edge {y : Feed n slotCount} (ht : y.todo = [])
    (hi : y.kernel.front.disp.inflight = []) (hseen : y.kernel.flags.seenHeader = false)
    (i : FeedIn) :
    (y.clock i).todo = [] ∧ (y.clock i).kernel.front.disp.inflight = [] ∧
    (y.clock i).kernel.front.disp.expectingHeader = y.kernel.front.disp.expectingHeader ∧
    (y.clock i).kernel.flags.seenHeader = false := by
  obtain ⟨hitems, hoff⟩ := List.append_eq_nil_iff.mp hi
  have hoff' : y.kernel.front.disp.offered = none := Option.toList_eq_nil_iff.mp hoff
  have hrx : y.rx i = none := by rw [Feed.rx, ht]; exact ite_self _
  have hdisp : (y.clock i).kernel.front.disp = y.kernel.front.disp.edge none
      (y.kernel.front.dispReady y.kernel.reconfReady) := by
    rw [← hrx]
    rfl
  have hhead : y.kernel.head = none := StreamFifo.head?_of_empty hitems
  have hsel := reconfSelected_none hhead
  refine ⟨?_, ?_, by rw [hdisp]; rfl, ?_⟩
  · show (if i.send then y.todo.tail else y.todo) = []
    rw [ht]
    exact ite_self _
  · rw [hdisp, inflight_edge, hoff', StreamFifo.edge_items_empty hitems]
    rfl
  · have hflags : (y.clock i).kernel.flags = y.kernel.flags :=
      flagsNext_hold (by rw [Kernel.headerLine, hsel]; rfl) (by rw [Kernel.payloadLine, hsel]; rfl)
        (Or.inr hseen)
    rw [hflags]
    exact hseen

/-- Nothing is on its way into the dispatcher's FIFO, and it shows its first beat. -/
structure Kernel.Settled (k : Kernel n slotCount) : Prop where
  offered : k.front.disp.offered = none
  settling : k.front.disp.fifo.settling = 0

/-- The head of the dispatcher's FIFO is the next beat of the stream; it is there once nothing is on
    its way. -/
theorem head_next {k : Kernel n slotCount} {b : RxBeat Unit} {bs tl : List (RxBeat Unit)}
    (h : k.front.disp.inflight ++ bs = b :: tl) :
    (k.head = none ∨ k.head = some b) ∧ (bs = [] → k.Settled → k.head = some b) := by
  rw [Disp.inflight] at h
  cases hit : k.front.disp.fifo.items with
  | nil =>
      refine ⟨Or.inl (StreamFifo.head?_of_empty hit), ?_⟩
      rintro rfl hs
      rw [hit, hs.offered] at h
      cases h
  | cons x xs =>
      rw [hit] at h
      obtain ⟨rfl, -⟩ := List.cons.inj h
      refine ⟨?_, fun _ hs => ?_⟩
      · cases hh : k.head with
        | none => exact Or.inl rfl
        | some y =>
            have hy := StreamFifo.head_of_head? hh
            rw [hit] at hy
            exact Or.inr hy.symm
      · rw [Kernel.head, StreamFifo.head?_settled hs.settling, hit]
        rfl

/-- A line that is forwarded is the next beat. -/
theorem forward_head {k : Kernel n slotCount} {b : RxBeat Unit} {bs tl : List (RxBeat Unit)}
    (hfw : k.forwardLine = true) (h : k.front.disp.inflight ++ bs = b :: tl) : k.head = some b := by
  refine (head_next h).1.resolve_left fun hn => ?_
  rw [Kernel.forwardLine, Kernel.payloadLine, reconfSelected_none hn] at hfw
  cases hfw

/-- **An idle controller that takes nothing** stays idle, is ready from then on, and answers nothing. -/
theorem clock_still {y : Feed n slotCount} (hsg : Signals y.kernel.sys.ctrl)
    (hidle : y.kernel.sys.ctrl.state = .idle)
    (hno : (y.kernel.forwardLine && y.kernel.sys.ctrl.sAxisTready) = false) (i : FeedIn) :
    (y.clock i).kernel.sys.ctrl.state = .idle ∧ (y.clock i).kernel.sys.ctrl.sAxisTready = true ∧
      (y.clock i).accepted = y.accepted ∧ (y.clock i).answered = y.answered := by
  have hctrl : (y.clock i).kernel.sys.ctrl = y.kernel.sys.ctrl.edge (y.kernel.ctrlIn (y.kernelIn i)) :=
    ctrl_edge y.kernel rfl
  obtain ⟨hr, ⟨hyes, -⟩ | ⟨-, hstill⟩⟩ := idle_edge hsg hidle (y.kernel.ctrlIn (y.kernelIn i))
  · cases hno.symm.trans hyes
  · refine ⟨by rw [hctrl]; exact hstill, by rw [hctrl]; exact idle_tready hidle hno, ?_, ?_⟩
    · show y.accepted ++ y.kernel.lineTaken = _
      rw [Kernel.lineTaken, hno]
      exact List.append_nil _
    · show y.answered ++ y.kernel.answerTaken (y.kernelIn i) = _
      rw [Kernel.answerTaken, hr]
      exact List.append_nil _

/-- **An idle controller that takes a line** takes it for a command, and answers nothing yet. -/
theorem clock_takes {y : Feed n slotCount} (hsg : Signals y.kernel.sys.ctrl)
    (hidle : y.kernel.sys.ctrl.state = .idle)
    (hyes : (y.kernel.forwardLine && y.kernel.sys.ctrl.sAxisTready) = true) {b : RxBeat Unit}
    (hhead : y.kernel.head = some b) (i : FeedIn) :
    (y.clock i).accepted = y.accepted ++ [b.payload] ∧ (y.clock i).answered = y.answered ∧
      (y.clock i).kernel.sys.ctrl.rank ≤ (Command.ofLine b.payload).rankBound ∧
      ((y.clock i).kernel.sys.ctrl.state.sends = true → payloadLines slotCount b.payload = 0) := by
  have hctrl : (y.clock i).kernel.sys.ctrl = y.kernel.sys.ctrl.edge (y.kernel.ctrlIn (y.kernelIn i)) :=
    ctrl_edge y.kernel rfl
  have hdata : (y.kernel.ctrlIn (y.kernelIn i)).sAxisTdata = b.payload := by
    show (y.kernel.head.map (·.payload)).getD 0 = _
    rw [hhead]
    rfl
  refine ⟨?_, ?_, ?_, fun hsends => ?_⟩
  · show y.accepted ++ y.kernel.lineTaken = _
    rw [Kernel.lineTaken, hyes, hhead]
    rfl
  · obtain ⟨hr, -⟩ := idle_edge hsg hidle (y.kernel.ctrlIn (y.kernelIn i))
    show y.answered ++ y.kernel.answerTaken (y.kernelIn i) = _
    rw [Kernel.answerTaken, hr]
    exact List.append_nil _
  · rw [hctrl, ← hdata]
    exact accept_rank hsg hidle _ hyes
  · rw [hctrl] at hsends
    rw [← hdata]
    exact accept_sends hidle hyes hsends

/-- An idle controller that has answered nothing has nothing to settle. -/
theorem course_quiet {p : Packet slotCount} {y : Feed n slotCount}
    (hst : ∃ bs cur qs vs, Story [p] y bs cur qs vs) (hidle : y.kernel.sys.ctrl.state = .idle)
    (hans : y.answered = []) : Course p y where
  story := hst
  sends e := by
    rw [hidle] at e
    cases e
  rank := by
    rw [Ctrl.rank, hidle]
    exact Nat.zero_le _
  done e := absurd hans e

/-- An edge of a controller that works on the packet, of which it has taken `j` lines behind the
    command. -/
theorem course_busy {p : Packet slotCount} (hx : p.Exact) {y : Feed n slotCount} (h : Course p y)
    {bs : List (RxBeat Unit)} {cur : Stage slotCount} {qs : List (Packet slotCount)}
    {vs : List (Visit slotCount)} (hst : Story [p] y bs cur qs vs) {i : FeedIn} (hb : i.pins.bresp = 0)
    {j : Nat} (hbusy : Busy p.command j y.kernel.sys.ctrl)
    (hseen : y.kernel.flags.seenHeader = decide (j < p.extra.length))
    (hstream : y.kernel.front.disp.inflight ++ bs = p.beatsOf (p.extra.drop j))
    (hacc : y.accepted = p.command :: p.extra.take j) (hans : y.answered = []) : Course p (y.clock i) := by
  have hst' := story_edge hst (story_fits hx.short hst) i
  have hsg := hst.signals
  have hctrl : (y.clock i).kernel.sys.ctrl =
      y.kernel.sys.ctrl.edge (y.kernel.ctrlIn (y.kernelIn i)) := ctrl_edge y.kernel rfl
  have hin : (y.kernel.ctrlIn (y.kernelIn i)).sAxisTvalid = y.kernel.forwardLine := rfl
  have haccd : (y.clock i).accepted = y.accepted ++ y.kernel.lineTaken := rfl
  have hansd : (y.clock i).answered = y.answered ++ y.kernel.answerTaken (y.kernelIn i) := rfl
  have hrank : (y.clock i).kernel.sys.ctrl.rank ≤ (Command.ofLine p.command).rankBound := by
    rw [hctrl]
    exact (rank_edge hsg hbusy _).1.trans h.rank
  have hle : j ≤ p.extra.length := hx.extra ▸ hbusy.lines_le.1
  have hfull : y.kernel.sys.ctrl.state.sends = true → j = p.extra.length := by
    intro e
    have hlen := congrArg List.length (hacc.symm.trans (h.sends e))
    rw [List.length_cons, List.length_cons, List.length_take] at hlen
    omega
  have hfull' : (y.clock i).kernel.sys.ctrl.state.sends = true → j = p.extra.length := by
    intro e
    rw [hctrl] at e
    exact (busy_sends (i := y.kernel.ctrlIn (y.kernelIn i)) hbusy
      (fun e' => (hfull e').trans hx.extra) hb e).trans hx.extra.symm
  rcases busy_edge hsg hbusy (y.kernel.ctrlIn (y.kernelIn i)) with
    ⟨hyes, hr, -⟩ | ⟨hno, hr, -⟩ | ⟨hno, hr, hidle', -⟩
  · -- a line is taken, so the controller waited for one
    refine ⟨hst', fun e => ?_, hrank, fun e => absurd ?_ e⟩
    · have hwait : y.kernel.sys.ctrl.state = .writeWaitData := by
        have hlisten : y.kernel.sys.ctrl.state.listens = true := by
          refine Bool.eq_true_of_not_eq_false fun e' => ?_
          rw [hsg.sAxisTready e', Bool.and_false] at hyes
          cases hyes
        have hidle := hbusy.not_idle
        revert hlisten hidle
        cases y.kernel.sys.ctrl.state <;> simp [St.listens]
      have hlt := hbusy.lines_le.2 hwait
      rw [← hx.extra] at hlt
      exact absurd (hfull' e) hlt.ne
    · rw [hansd, hans, Kernel.answerTaken, hr]
      rfl
  · refine ⟨hst', fun e => ?_, hrank, fun e => absurd ?_ e⟩
    · rw [haccd, Kernel.lineTaken, ← hin, hno, hacc, hfull' e, List.take_length]
      exact List.append_nil _
    · rw [hansd, hans, Kernel.answerTaken, hr]
      rfl
  · -- the response leaves: the packet is behind it
    have hsends : y.kernel.sys.ctrl.state.sends = true := by
      rw [← hsg.mAxisTvalid]
      refine Bool.eq_true_of_not_eq_false fun e => ?_
      rw [responseTaken_none (by rw [e]; rfl)] at hr
      cases hr
    have hj := hfull hsends
    rw [hj, List.drop_length] at hstream
    obtain ⟨hi, hbs⟩ := List.append_eq_nil_iff.mp hstream
    obtain ⟨htodo, he⟩ := ahead_nil hst.ahead
    have hseen0 : y.kernel.flags.seenHeader = false := by
      rw [hseen, hj]
      exact decide_eq_false (Nat.lt_irrefl _)
    obtain ⟨ht', hi', he', hseen'⟩ := quiet_edge (htodo.mpr hbs) hi hseen0 i
    refine ⟨hst', fun e => ?_, hrank, fun _ => ⟨?_, ht', hi', he'.trans (he hbs), hseen'⟩⟩
    · rw [hctrl, hidle'] at e
      cases e
    · rw [haccd, Kernel.lineTaken, ← hin, hno, hacc, hj, List.take_length]
      exact List.append_nil _

theorem course_edge {p : Packet slotCount} (hx : p.Exact) {y : Feed n slotCount} (h : Course p y)
    {i : FeedIn} (hb : i.pins.bresp = 0) : Course p (y.clock i) := by
  obtain ⟨bs, cur, qs, vs, hst⟩ := h.story
  have hst' := story_edge hst (story_fits hx.short hst) i
  cases alone_of_story hx.controller hst with
  | fresh hidle hseen hstream hacc hans =>
      obtain ⟨hidle', -, -, hans'⟩ := clock_still hst.signals hidle (by rw [forward_unseen hseen]; rfl) i
      exact course_quiet hst' hidle' (hans'.trans hans)
  | opened hidle hseen hdrain hstream hacc hans =>
      cases hno : y.kernel.forwardLine && y.kernel.sys.ctrl.sAxisTready with
      | false =>
          obtain ⟨hidle', -, -, hans'⟩ := clock_still hst.signals hidle hno i
          exact course_quiet hst' hidle' (hans'.trans hans)
      | true =>
          rw [hx.rest, beatsOf_cons] at hstream
          have hhead := forward_head (Bool.and_eq_true_iff.mp hno).1 hstream
          obtain ⟨hacc', hans', hrank, hneed⟩ := clock_takes hst.signals hidle hno hhead i
          refine ⟨hst', fun e => ?_, hrank, fun e => absurd (hans'.trans hans) e⟩
          have hnil := hneed e
          rw [show (p.beat p.command _).payload = p.command from rfl, ← hx.extra, List.length_eq_zero_iff] at hnil
          rw [hacc', hacc, hnil]
          rfl
  | busy j hbusy hseen hdrain hstream hacc hans => exact course_busy hx h hst hb hbusy hseen hstream hacc hans
  | done j r hj hidle hacc hans =>
      obtain ⟨hall, ht, hi, he, hseen⟩ := h.done (by rw [hans]; exact List.cons_ne_nil _ _)
      obtain ⟨ht', hi', he', hseen'⟩ := quiet_edge ht hi hseen i
      obtain ⟨hidle', -, hacc', -⟩ := clock_still hst.signals hidle (by rw [forward_unseen hseen]; rfl) i
      refine ⟨hst', fun e => ?_, ?_, fun _ => ⟨hacc'.trans hall, ht', hi', he'.trans he, hseen'⟩⟩
      · rw [hidle'] at e
        cases e
      · rw [Ctrl.rank, hidle']
        exact Nat.zero_le _

theorem course_run {p : Packet slotCount} (hx : p.Exact) {y : Feed n slotCount} (h : Course p y)
    (is : List FeedIn) (hb : ∀ i ∈ is, i.pins.bresp = 0) : Course p (run Feed.clock y is) :=
  run_meets (P := Course p) (fun _ _ h hb => course_edge hx h hb) h is
    (Meets.of_mem (Q := fun i : FeedIn => i.pins.bresp = 0) hb)

/-! ## 3. In time -/

/-- The willing edges the packet's command can still take. -/
def Feed.toServe (bound : Nat) (y : Feed n slotCount) : Nat :=
  if y.answered.isEmpty then
    if y.accepted.isEmpty then
      bound + 1 + (if y.kernel.sys.ctrl.sAxisTready then 0 else 1) +
        (if y.kernel.flags.seenHeader then 0 else 1)
    else y.kernel.sys.ctrl.rank
  else 0

/-- **The willing edges the packet can still take**, once its lines have arrived: one may bring the
    last of them from the dispatcher's register into its FIFO, and as many as the FIFO is late pass
    until it is shown. -/
def Feed.work (bound : Nat) (y : Feed n slotCount) : Nat :=
  y.toServe bound +
    (if y.kernel.front.disp.offered.isSome then FifoKind.latency + 1
      else y.kernel.front.disp.fifo.settling)

/-- **An edge does not raise what the packet can still take**; a willing one lowers it, if nothing is on
    its way. -/
def Feed.Serves (bound : Nat) (y : Feed n slotCount) (i : FeedIn) : Prop :=
  (y.clock i).toServe bound ≤ y.toServe bound ∧ (i.pins.willing = true → y.kernel.Settled →
    (y.clock i).toServe bound < y.toServe bound ∨ y.answered ≠ [])

section Serves

variable {p : Packet slotCount} {y : Feed n slotCount} {bound : Nat} {tl : List (RxBeat Unit)}

/-- Before the header: it is taken as soon as it is shown. -/
theorem serves_fresh (hx : p.Exact) (hsg : Signals y.kernel.sys.ctrl)
    (hidle : y.kernel.sys.ctrl.state = .idle) (hseen : y.kernel.flags.seenHeader = false)
    (hstream : y.kernel.front.disp.inflight = p.beat p.header p.rest.isEmpty :: tl)
    (hacc : y.accepted = []) (hans : y.answered = []) (i : FeedIn) : y.Serves bound i := by
  have hflags : (y.clock i).kernel.flags = y.kernel.flagsNext (y.kernelIn i) := rfl
  obtain ⟨-, hrdy', hacc', hans'⟩ := clock_still hsg hidle (by rw [forward_unseen hseen]; rfl) i
  simp only [Feed.Serves, Feed.toServe, hacc', hans', hrdy', hacc, hans, hseen, List.isEmpty_nil, if_true,
    Bool.false_eq_true, if_false]
  have hstream' : y.kernel.front.disp.inflight ++ [] = _ := (List.append_nil _).trans hstream
  obtain ⟨hhead, hshown⟩ := head_next hstream'
  rcases hhead with hnone | hhead
  · -- the header is not shown yet
    have hseen' : (y.clock i).kernel.flags.seenHeader = false := by
      have hsel := reconfSelected_none hnone
      rw [hflags, flagsNext_hold (by rw [Kernel.headerLine, hsel]; rfl)
        (by rw [Kernel.payloadLine, hsel]; rfl) (Or.inr hseen)]
      exact hseen
    rw [hseen']
    refine ⟨by simp, fun _ hs => ?_⟩
    rw [hshown rfl hs] at hnone
    cases hnone
  · have hline : y.kernel.headerLine = true := by
      rw [Kernel.headerLine, reconfSelected_some hhead, hseen]
      exact Bool.and_eq_true_iff.mpr ⟨hx.controller, rfl⟩
    have hready : y.kernel.reconfReady = true := by
      rw [Kernel.reconfReady, hline, if_pos rfl]
      exact decide_eq_true hidle
    have hseen' : (y.clock i).kernel.flags.seenHeader = true := by
      rw [hflags, Kernel.flagsNext, hline, hready, hhead]
      simp [Packet.beat, hx.rest]
    rw [hseen', if_pos rfl]
    exact ⟨by omega, fun _ _ => Or.inl (by omega)⟩

/-- Behind the header: the command is taken as soon as it is shown and the controller is ready. -/
theorem serves_opened (hx : p.Exact) (hsg : Signals y.kernel.sys.ctrl)
    (hidle : y.kernel.sys.ctrl.state = .idle) (hseen : y.kernel.flags.seenHeader = true)
    (hdrain : y.kernel.flags.drainPacket = false)
    (hstream : y.kernel.front.disp.inflight = p.beat p.command p.extra.isEmpty :: tl)
    (hacc : y.accepted = []) (hans : y.answered = []) (i : FeedIn) :
    y.Serves (Command.ofLine p.command).rankBound i := by
  have hstream' := (List.append_nil _).trans hstream
  cases hno : y.kernel.forwardLine && y.kernel.sys.ctrl.sAxisTready with
  | true =>
      -- the command is taken
      have hhead := forward_head (Bool.and_eq_true_iff.mp hno).1 hstream'
      obtain ⟨hacc', hans', hrank, -⟩ := clock_takes hsg hidle hno hhead i
      rw [hacc, List.nil_append] at hacc'
      have hlt : (y.clock i).toServe (Command.ofLine p.command).rankBound <
          y.toServe (Command.ofLine p.command).rankBound := by
        simp only [Feed.toServe, hacc', hans', hacc, hans, List.isEmpty_nil, List.isEmpty_cons, if_true,
          Bool.false_eq_true, if_false]
        refine Nat.lt_of_le_of_lt hrank ?_
        show (Command.ofLine p.command).rankBound < _
        omega
      exact ⟨hlt.le, fun _ _ => Or.inl hlt⟩
  | false =>
      obtain ⟨-, hrdy', hacc', hans'⟩ := clock_still hsg hidle hno i
      have hline : y.kernel.headerLine = false := by
        rw [Kernel.headerLine, hseen]
        exact Bool.and_false _
      have hready : y.kernel.reconfReady = y.kernel.sys.ctrl.sAxisTready := by
        rw [Kernel.reconfReady, hline, hdrain]
        rfl
      have hpay : y.kernel.payloadLine = y.kernel.forwardLine := by
        rw [Kernel.forwardLine, hdrain]
        exact (Bool.and_true _).symm
      have hseen' : (y.clock i).kernel.flags.seenHeader = true := by
        rw [show (y.clock i).kernel.flags = y.kernel.flagsNext (y.kernelIn i) from rfl,
          flagsNext_hold (by rw [hline]; rfl) (by rw [hpay, hready, hno]; rfl)
            (Or.inl (by rw [hsg.mAxisTvalid, hidle]; rfl))]
        exact hseen
      simp only [Feed.Serves, Feed.toServe, hacc', hans', hrdy', hseen', hacc, hans, hseen,
        List.isEmpty_nil, if_true]
      refine ⟨by omega, fun _ hs => Or.inl ?_⟩
      have hhead := (head_next hstream').2 rfl hs
      have hfw : y.kernel.forwardLine = true := by
        rw [← hpay, Kernel.payloadLine, reconfSelected_some hhead, hseen]
        exact Bool.and_eq_true_iff.mpr ⟨hx.controller, rfl⟩
      rw [hfw, Bool.true_and] at hno
      rw [hno]
      simp

/-- Behind the command the controller makes progress: where it waits for a line it has it. -/
theorem serves_busy (hx : p.Exact) (hsg : Signals y.kernel.sys.ctrl) {j : Nat}
    (hbusy : Busy p.command j y.kernel.sys.ctrl)
    (hseen : y.kernel.flags.seenHeader = decide (j < p.extra.length))
    (hdrain : j < p.extra.length → y.kernel.flags.drainPacket = false)
    (hstream : y.kernel.front.disp.inflight = p.beatsOf (p.extra.drop j))
    (hacc : y.accepted = p.command :: p.extra.take j) (hans : y.answered = []) (i : FeedIn) :
    y.Serves bound i := by
  have hle := rank_edge hsg hbusy (y.kernel.ctrlIn (y.kernelIn i))
  have hctrl : (y.clock i).kernel.sys.ctrl =
      y.kernel.sys.ctrl.edge (y.kernel.ctrlIn (y.kernelIn i)) := ctrl_edge y.kernel rfl
  rw [← hctrl] at hle
  have hold : y.toServe bound = y.kernel.sys.ctrl.rank := by
    rw [Feed.toServe, hans, hacc]
    rfl
  have hne : (y.clock i).accepted.isEmpty = false := by
    show (y.accepted ++ y.kernel.lineTaken).isEmpty = false
    rw [hacc]
    rfl
  rw [Feed.Serves, hold]
  cases hans' : (y.clock i).answered.isEmpty with
  | false =>
      have hnew : (y.clock i).toServe bound = 0 := by
        rw [Feed.toServe, hans']
        rfl
      rw [hnew]
      exact ⟨Nat.zero_le _, fun _ _ => Or.inl (hbusy.rank_pos hsg)⟩
  | true =>
      have hnew : (y.clock i).toServe bound = (y.clock i).kernel.sys.ctrl.rank := by
        rw [Feed.toServe, hans', hne]
        rfl
      rw [hnew]
      refine ⟨hle.1, fun hw hs => Or.inl (hle.2 ?_)⟩
      have hwill : (y.kernel.ctrlIn (y.kernelIn i)).willing = true := hw
      rw [Ctrl.fed, hwill, Bool.true_and, Bool.or_eq_true, decide_eq_true_eq]
      by_cases hwait : y.kernel.sys.ctrl.state = .writeWaitData
      · have hj : j < p.extra.length := hx.extra ▸ hbusy.lines_le.2 hwait
        rw [List.drop_eq_getElem_cons hj, beatsOf_cons] at hstream
        have hhead := (head_next ((List.append_nil _).trans hstream)).2 rfl hs
        refine Or.inr ?_
        rw [show (y.kernel.ctrlIn (y.kernelIn i)).sAxisTvalid = y.kernel.forwardLine from rfl,
          Kernel.forwardLine, Kernel.payloadLine, reconfSelected_some hhead, hseen, hdrain hj,
          decide_eq_true hj]
        exact Bool.and_eq_true_iff.mpr ⟨Bool.and_eq_true_iff.mpr ⟨hx.controller, rfl⟩, rfl⟩
      · exact Or.inl hwait

/-- **One edge**, once all lines have arrived. -/
theorem serves_edge (hx : p.Exact) (h : Course p y) (ht : y.todo = []) (i : FeedIn) :
    y.Serves (Command.ofLine p.command).rankBound i := by
  obtain ⟨bs, cur, qs, vs, hst⟩ := h.story
  obtain rfl : bs = [] := (ahead_nil hst.ahead).1.mp ht
  cases alone_of_story hx.controller hst with
  | fresh hidle hseen hstream hacc hans =>
      rw [Packet.beats, beatsOf_cons, List.append_nil] at hstream
      exact serves_fresh hx hst.signals hidle hseen hstream hacc hans i
  | opened hidle hseen hdrain hstream hacc hans =>
      rw [hx.rest, beatsOf_cons, List.append_nil] at hstream
      exact serves_opened hx hst.signals hidle hseen hdrain hstream hacc hans i
  | busy j hbusy hseen hdrain hstream hacc hans =>
      rw [List.append_nil] at hstream
      exact serves_busy hx hst.signals hbusy hseen hdrain hstream hacc hans i
  | done j r hj hidle hacc hans =>
      refine ⟨?_, fun _ _ => Or.inr (by rw [hans]; exact List.cons_ne_nil _ _)⟩
      have hzero : (y.clock i).toServe (Command.ofLine p.command).rankBound = 0 := by
        rw [Feed.toServe, show (y.clock i).answered = y.answered ++ _ from rfl, hans]
        rfl
      rw [hzero]
      exact Nat.zero_le _

end Serves

theorem work_edge {p : Packet slotCount} (hx : p.Exact) {y : Feed n slotCount} (h : Course p y)
    (ht : y.todo = []) (i : FeedIn) :
    (y.clock i).work (Command.ofLine p.command).rankBound ≤
      y.work (Command.ofLine p.command).rankBound - (if i.pins.willing then 1 else 0) := by
  obtain ⟨hle, hlt⟩ := serves_edge hx h ht i
  have hrx : y.rx i = none := by rw [Feed.rx, ht]; exact ite_self _
  have hdisp : (y.clock i).kernel.front.disp =
      y.kernel.front.disp.edge none (y.kernel.front.dispReady y.kernel.reconfReady) := by
    rw [← hrx]
    rfl
  have hoff : (y.clock i).kernel.front.disp.offered = none := by
    rw [hdisp]
    rfl
  have hsettling := (y.clock i).kernel.front.disp.fifo.settling_le
  rw [Feed.work, Feed.work, hoff, Option.isSome_none, if_neg Bool.false_ne_true]
  cases ho : y.kernel.front.disp.offered with
  | some b =>
      rw [Option.isSome_some, if_pos rfl]
      split <;> omega
  | none =>
      have hfifo : (y.clock i).kernel.front.disp.fifo.settling = y.kernel.front.disp.fifo.settling - 1 := by
        rw [hdisp, fifo_edge, ho]
        exact StreamFifo.settling_edge ..
      rw [Option.isSome_none, if_neg Bool.false_ne_true, hfifo]
      cases hw : i.pins.willing with
      | false =>
          rw [if_neg Bool.false_ne_true]
          omega
      | true =>
          rw [if_pos rfl]
          by_cases hzero : y.kernel.front.disp.fifo.settling = 0
          · rcases hlt hw ⟨ho, hzero⟩ with hlt | hne
            · omega
            · have hserved : y.toServe (Command.ofLine p.command).rankBound = 0 := by
                rw [Feed.toServe, if_neg (by simpa using hne)]
              omega
          · omega

/-- The packet that has nothing left to take is answered. -/
theorem work_zero {p : Packet slotCount} (hx : p.Exact) {y : Feed n slotCount} (h : Course p y)
    (h0 : y.work (Command.ofLine p.command).rankBound = 0) : y.answered ≠ [] := by
  obtain ⟨bs, cur, qs, vs, hst⟩ := h.story
  have hserve : y.toServe (Command.ofLine p.command).rankBound = 0 :=
    Nat.eq_zero_of_add_eq_zero_right h0
  cases alone_of_story hx.controller hst with
  | fresh hidle hseen hstream hacc hans =>
      rw [Feed.toServe, hans, hacc, List.isEmpty_nil, if_pos rfl, List.isEmpty_nil, if_pos rfl] at hserve
      omega
  | opened hidle hseen hdrain hstream hacc hans =>
      rw [Feed.toServe, hans, hacc, List.isEmpty_nil, if_pos rfl, List.isEmpty_nil, if_pos rfl] at hserve
      omega
  | busy j hbusy hseen hdrain hstream hacc hans =>
      have hpos := hbusy.rank_pos hst.signals
      rw [Feed.toServe, hans, hacc, List.isEmpty_nil, if_pos rfl, List.isEmpty_cons,
        if_neg Bool.false_ne_true] at hserve
      omega
  | done j r hj hidle hacc hans => rw [hans]; exact List.cons_ne_nil _ _

theorem work_le {p : Packet slotCount} {y : Feed n slotCount} (h : Course p y) :
    y.work (Command.ofLine p.command).rankBound ≤
      (Command.ofLine p.command).rankBound + 4 + FifoKind.latency := by
  have hrank := h.rank
  have hsettling := y.kernel.front.disp.fifo.settling_le
  unfold Feed.work Feed.toServe
  split_ifs <;> omega

/-! ## 4. The exchange -/

/-- **An answered packet**: it has been taken whole, is answered once, with 64 and its session, and
    the kernel is idle again. -/
theorem exchange_answered {p : Packet slotCount} (hx : p.Exact) {y : Feed n slotCount}
    (h : Course p y) (hne : y.answered ≠ []) :
    y.accepted = p.command :: p.extra ∧ (∃ r, y.answered = [(⟨64, p.session⟩, r)]) ∧ y.kernel.Idle := by
  obtain ⟨bs, cur, qs, vs, hst⟩ := h.story
  obtain ⟨hall, -, hi, he, hseen⟩ := h.done hne
  cases alone_of_story hx.controller hst with
  | fresh _ _ _ _ hans => exact absurd hans hne
  | opened _ _ _ _ _ hans => exact absurd hans hne
  | busy _ _ _ _ _ _ hans => exact absurd hans hne
  | done j r hj hidle hacc hans =>
      exact ⟨hall, ⟨r, hans⟩, hst.signals, hst.framed, hidle, hseen, he, hi⟩

/-- **An exchange takes a bounded number of willing edges**, once the packet has arrived. -/
theorem exchange_done {k : Kernel n slotCount} (hk : k.Idle) {p : Packet slotCount} (hx : p.Exact)
    (is js : List FeedIn) (hb : ∀ i ∈ is ++ js, i.pins.bresp = 0)
    (harrived : (run Feed.clock (Feed.start k p.lines) is).todo = [])
    (henough : (Command.ofLine p.command).rankBound + 4 + FifoKind.latency ≤ js.countP (·.pins.willing)) :
    (run Feed.clock (Feed.start k p.lines) (is ++ js)).answered ≠ [] := by
  have hmid := course_run hx (course_start hk p) is fun i hi => hb i (List.mem_append_left _ hi)
  rw [run_append]
  generalize run Feed.clock (Feed.start k p.lines) is = mid at hmid harrived ⊢
  have hcount : (Course p (run Feed.clock mid js) ∧ (run Feed.clock mid js).todo = []) ∧
      (run Feed.clock mid js).work (Command.ofLine p.command).rankBound ≤
        (Command.ofLine p.command).rankBound + 4 + FifoKind.latency - js.countP (·.pins.willing) := by
    refine run_countdown (w := fun i : FeedIn => i.pins.willing)
      (Q := fun i : FeedIn => i.pins.bresp = 0)
      (P := fun m y => (Course p y ∧ y.todo = []) ∧
        y.work (Command.ofLine p.command).rankBound ≤ m)
      ?_ ⟨⟨hmid, harrived⟩, work_le hmid⟩ js fun i hi => hb i (List.mem_append_right _ hi)
    rintro m y i ⟨⟨hc, ht⟩, hm⟩ hi
    refine ⟨⟨course_edge hx hc hi, ?_⟩, (work_edge hx hc ht i).trans ?_⟩
    · show (if i.send then y.todo.tail else y.todo) = []
      rw [ht]
      exact ite_self _
    · cases i.pins.willing <;> simp <;> omega
  exact work_zero hx hcount.1.1 (by omega)

end Frac.PktLogic
