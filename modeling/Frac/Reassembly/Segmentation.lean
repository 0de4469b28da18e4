/-
  File:      Frac/Reassembly/Segmentation.lean
  Subject:   One application request after another through dispatcher and scheduler: what leaves on
             `tx` does not depend on how the requests are cut into packets, on the idle cycles
             between lines, or on when `tx` is ready.

  * `AppRequest` -- a request cut into packets; `AppRequest.beats` -- the beats it leaves with, a
    function of its lines and not of the cut;
  * `SegSys` -- the front, the lines still to send, the beats due and the beats that have left;
  * `Tracking`, `SegInv` -- where a request is on its way (`segInv_clock`);
  * `reassembly_exact` -- **what has left is always a beginning of what is due, and all of it
    leaves** once the lines are sent and `tx` is ready often enough.
-/
import Frac.Lib.Clocked
import Frac.Reassembly.Dispatcher
import Frac.Reassembly.Solo

namespace Frac.Reassembly

open Clocked

variable {n : Nat} {τ : Type}

/-! ## 1. Requests and their packets -/

/-- The first line of the first packet. -/
def headerLine (packets : List (List (BitVec 512 × τ))) : BitVec 512 :=
  (packets.flatten.head?.map Prod.fst).getD 0

/-- **A request of 64-byte lines, cut into packets**: the first line is its header. -/
structure AppRequest (τ : Type) where
  connid : BitVec 16
  packets : List (List (BitVec 512 × τ))
  session : connid ≠ BitVec.allOnes 16
  cut : ∀ p ∈ packets, 1 ≤ p.length ∧ p.length ≤ 64
  atLeast : 1 ≤ packets.flatten.length
  atMost : packets.flatten.length ≤ 512
  first : (headerLine packets).getLsbD 480 = true
  last : (headerLine packets).getLsbD 481 = true → packets.length = 1
  size : (headerLine packets).extractLsb' 448 32 = BitVec.ofNat 32 (64 * packets.flatten.length)
  workload : (headerLine packets).extractLsb' 496 16 ≠ reconfApp

/-- The lines of a packet: `tlast` on the last, the packet's length with each. -/
def packetLines (connid length : BitVec 16) : List (BitVec 512 × τ) → List (DispLine τ)
  | [] => []
  | x :: xs => ⟨length, connid, xs.isEmpty, x.1, x.2⟩ :: packetLines connid length xs

/-- The lines of a request as they arrive. -/
def AppRequest.lines (q : AppRequest τ) : List (DispLine τ) :=
  q.packets.flatMap fun p => packetLines q.connid (BitVec.ofNat 16 (64 * p.length)) p

/-- Lines as they leave: `request_end` and `tlast` on the last only. -/
def outBeats (workload size connid : BitVec 16) : List (BitVec 512 × τ) → List (QBeat τ)
  | [] => []
  | x :: xs =>
    ⟨xs.isEmpty, 0, workload, size, connid, xs.isEmpty, x.1, x.2⟩ :: outBeats workload size connid xs

/-- **The beats a request leaves with**: its lines, unchanged and in order. -/
def AppRequest.beats (q : AppRequest τ) : List (QBeat τ) :=
  outBeats ((headerLine q.packets).extractLsb' 496 16)
    (BitVec.ofNat 16 (64 * q.packets.flatten.length)) q.connid q.packets.flatten

/-! ## 2. The lines of a request, as the dispatcher labels them -/

/-- The label of a request. -/
def AppRequest.label (q : AppRequest τ) : Label :=
  ⟨q.connid, (headerLine q.packets).extractLsb' 496 16,
    BitVec.ofNat 32 (64 * q.packets.flatten.length)⟩

/-- A line as the dispatcher hands it on. -/
def Label.rx (r : Label) (l : DispLine τ) : RxBeat τ :=
  ⟨0, r.size, r.workload, l.length, l.connid, l.tlast, l.payload, l.tag⟩

/-- What a beat of the dispatcher keeps of a line. -/
def RxBeat.content (b : RxBeat τ) : BitVec 512 × τ := (b.payload, b.tag)

section Packets

variable {r : Label} {connid length : BitVec 16} {xs : List (BitVec 512 × τ)}

theorem content_packet (r : Label) (connid length : BitVec 16) (xs : List (BitVec 512 × τ)) :
    ((packetLines connid length xs).map r.rx).map (·.content) = xs := by
  induction xs with
  | nil => rfl
  | cons x xs ih => exact congrArg (x :: ·) ih

/-- A packet's lines count its length once. -/
theorem packetBytes_packet (h : xs ≠ []) :
    packetBytes ((packetLines connid length xs).map r.rx) = length.toNat := by
  induction xs with
  | nil => exact absurd rfl h
  | cons x xs ih =>
      show (if xs.isEmpty then length.toNat else 0) + packetBytes _ = _
      cases xs with
      | nil => rfl
      | cons x' xs =>
          rw [ih (by simp)]
          simp

theorem rest_packet (hpos : 0 < length.toNat) :
    r.Rest ((packetLines r.connid length xs).map r.rx) := by
  induction xs with
  | nil => exact rest_nil
  | cons x xs ih =>
      refine ⟨fun b h => ?_, fun b h => ?_, fun b h => ?_⟩
      · rcases List.mem_cons.mp h with rfl | h
        · exact ⟨rfl, rfl, rfl, rfl⟩
        · exact ih.on b h
      · rcases List.mem_cons.mp h with rfl | h
        · exact hpos
        · exact ih.pos b h
      · cases xs with
        | nil => cases h; rfl
        | cons x' xs => exact ih.last b h

theorem packetBytes_append (bs cs : List (RxBeat τ)) :
    packetBytes (bs ++ cs) = packetBytes bs + packetBytes cs := by
  induction bs with
  | nil => simp [packetBytes]
  | cons b bs ih =>
      rw [List.cons_append, packetBytes, packetBytes, ih]
      omega

theorem rest_append {bs cs : List (RxBeat τ)} (hb : r.Rest bs) (hc : r.Rest cs) :
    r.Rest (bs ++ cs) where
  on b h := (List.mem_append.mp h).elim (hb.on b) (hc.on b)
  pos b h := (List.mem_append.mp h).elim (hb.pos b) (hc.pos b)
  last b h := by
    rw [List.getLast?_append] at h
    cases hl : cs.getLast? with
    | none => rw [hl] at h; exact hb.last b h
    | some c => rw [hl] at h; cases h; exact hc.last b hl

/-- The beats leave with the request's label and their own content. -/
theorem beats_content (r : Label) (bs : List (RxBeat τ)) :
    r.beats bs = outBeats r.workload (r.size.extractLsb' 0 16) r.connid (bs.map (·.content)) := by
  induction bs with
  | nil => rfl
  | cons b bs ih =>
      show r.beat bs.isEmpty b :: r.beats bs = ⟨(bs.map _).isEmpty, _, _, _, _, _, _, _⟩ :: _
      rw [ih, List.isEmpty_map]
      rfl

/-- What the packets of a request come to. -/
theorem packets_spec (r : Label) (ps : List (List (BitVec 512 × τ)))
    (hcut : ∀ p ∈ ps, 1 ≤ p.length ∧ p.length ≤ 64) :
    r.Rest ((ps.flatMap fun p => packetLines r.connid (BitVec.ofNat 16 (64 * p.length)) p).map r.rx) ∧
    packetBytes ((ps.flatMap fun p =>
      packetLines r.connid (BitVec.ofNat 16 (64 * p.length)) p).map r.rx) = 64 * ps.flatten.length ∧
    ((ps.flatMap fun p =>
      packetLines r.connid (BitVec.ofNat 16 (64 * p.length)) p).map r.rx).map (·.content) =
        ps.flatten := by
  induction ps with
  | nil => exact ⟨rest_nil, rfl, rfl⟩
  | cons p ps ih =>
      obtain ⟨h1, h2⟩ := hcut p (List.mem_cons_self ..)
      obtain ⟨hrest, hbytes, hcontent⟩ := ih fun p' h' => hcut p' (List.mem_cons_of_mem _ h')
      have hlen : (BitVec.ofNat 16 (64 * p.length)).toNat = 64 * p.length := by
        rw [BitVec.toNat_ofNat]
        exact Nat.mod_eq_of_lt (by omega)
      have hne : p ≠ [] := fun e => by
        rw [e] at h1
        cases h1
      rw [List.flatMap_cons, List.map_append, List.map_append, List.flatten_cons, List.length_append]
      refine ⟨rest_append (rest_packet (by rw [hlen]; omega)) hrest, ?_, ?_⟩
      · rw [packetBytes_append, packetBytes_packet hne, hbytes, hlen]
        omega
      · rw [content_packet, hcontent]

end Packets

section Lines

variable (q : AppRequest τ)

theorem lines_rest : q.label.Rest (q.lines.map q.label.rx) :=
  (packets_spec q.label q.packets q.cut).1

theorem label_size : q.label.size.toNat = 64 * q.packets.flatten.length := by
  show (BitVec.ofNat 32 _).toNat = _
  have := q.atMost
  rw [BitVec.toNat_ofNat]
  exact Nat.mod_eq_of_lt (by omega)

theorem lines_bytes : packetBytes (q.lines.map q.label.rx) = q.label.size.toNat := by
  rw [label_size]
  exact (packets_spec q.label q.packets q.cut).2.1

theorem lines_content : (q.lines.map q.label.rx).map (·.content) = q.packets.flatten :=
  (packets_spec q.label q.packets q.cut).2.2

theorem lines_length : (q.lines.map q.label.rx).length ≤ 512 := by
  rw [← List.length_map (f := (·.content)), lines_content]
  exact q.atMost

theorem lines_beats : q.label.beats (q.lines.map q.label.rx) = q.beats := by
  have hsize : q.label.size.extractLsb' 0 16 = BitVec.ofNat 16 (64 * q.packets.flatten.length) := by
    refine BitVec.eq_of_toNat_eq ?_
    have := q.atMost
    rw [BitVec.extractLsb'_toNat, label_size, BitVec.toNat_ofNat, Nat.shiftRight_zero]
  rw [beats_content, lines_content, hsize]
  rfl

/-- The first line is the header; a packet that is the whole request may say so. -/
theorem lines_header : ∃ l ls, q.lines = l :: ls ∧ l.payload = headerLine q.packets ∧
    (l.requestLast = true → l.tlast = true → ls = []) := by
  have hcontent := lines_content q
  have hlines : q.lines ≠ [] := fun e => by
    rw [e] at hcontent
    have := q.atLeast
    rw [← hcontent] at this
    cases this
  obtain ⟨l, ls, hl⟩ := List.exists_cons_of_ne_nil hlines
  have hpay : l.payload = headerLine q.packets := by
    rw [headerLine, ← hcontent, hl]
    rfl
  refine ⟨l, ls, hl, hpay, fun hlast htl => ?_⟩
  have hone : q.packets.length = 1 := q.last (by rw [← hpay]; exact hlast)
  obtain ⟨p, hp⟩ := List.length_eq_one_iff.mp hone
  rw [AppRequest.lines, hp, List.flatMap_singleton] at hl
  cases p with
  | nil => cases hl
  | cons x xs =>
      obtain ⟨rfl, rfl⟩ := List.cons.inj hl
      cases xs with
      | nil => rfl
      | cons x' xs => cases htl

end Lines

/-! ## 3. The front, fed with requests -/

section Front

variable [FifoKind]

/-- The front, the lines of the current request still to send, the beats of all requests begun, and
    the beats that have left on `tx`; since the last reset. -/
structure SegSys (n : Nat) (τ : Type) where
  front : Front n τ
  todo : List (DispLine τ)
  due : List (QBeat τ)
  out : List (QBeat τ)

def SegSys.init (n : Nat) (τ : Type) [Inhabited τ] : SegSys n τ := ⟨Front.reset n τ, [], [], []⟩

/-- One clock edge's inputs: a request may begin; the next line may be sent. -/
structure SegIn (τ : Type) where
  rst : Bool
  start : Option (AppRequest τ)
  send : Bool
  txTready : Bool
  reconfReady : Bool

def SegSys.begin (y : SegSys n τ) : Option (AppRequest τ) → SegSys n τ
  | none => y
  | some q => { y with todo := q.lines, due := y.due ++ q.beats }

/-- The clock edge with `rst` low, once a request has begun. -/
def SegSys.edge (y : SegSys n τ) (i : SegIn τ) : SegSys n τ where
  front := y.front.edge ⟨false, if i.send then y.todo.head? else none, i.txTready, i.reconfReady⟩
  todo := if i.send then y.todo.tail else y.todo
  due := y.due
  out := y.out ++ (y.front.sched.tx i.txTready).toList

def SegSys.clock [Inhabited τ] (y : SegSys n τ) (i : SegIn τ) : SegSys n τ :=
  if i.rst then SegSys.init n τ else (y.begin i.start).edge i

/-- A request begins only when every line of the one before has left on `tx`. -/
def SegSys.Paced (y : SegSys n τ) (i : SegIn τ) : Prop :=
  i.start.isSome = true → y.todo = [] ∧ y.out = y.due

/-! ## 4. The dispatcher -/

/-- **Where the dispatcher is in a request** whose lines `ls` are still to come: between two
    requests, before the header, or within the request with the bytes of `ls` to go. -/
inductive Tracking (r : Label) (d : Disp τ) : List (DispLine τ) → Prop where
  | between (he : d.expectingHeader = true) : Tracking r d []
  | header (l : DispLine τ) (ls : List (DispLine τ)) (he : d.expectingHeader = true)
      (hfirst : l.requestFirst = true) (hlast : l.requestLast = true → l.tlast = true → ls = [])
      (hw : l.headerWorkload = r.workload) (hs : l.headerPacketSize = r.size)
      (hb : packetBytes ((l :: ls).map r.rx) = r.size.toNat) : Tracking r d (l :: ls)
  | within (l : DispLine τ) (ls : List (DispLine τ)) (he : d.expectingHeader = false)
      (hw : d.workloadSelection = r.workload) (hs : d.packetSize = r.size)
      (hb : packetBytes ((l :: ls).map r.rx) = d.requestBytesRemaining.toNat) : Tracking r d (l :: ls)

section Tracking

variable {r : Label} {d : Disp τ} {l : DispLine τ} {ls : List (DispLine τ)}

/-- Whichever way a line is taken, its label and the bytes to go are the request's. -/
theorem tracking_active (h : Tracking r d (l :: ls)) (happ : r.workload ≠ reconfApp) :
    d.label l = (r.size, r.workload) ∧ (d.activeBytes l).toNat = packetBytes ((l :: ls).map r.rx) ∧
    ((d.configHeader l && l.requestLast) = true → l.tlast = true → ls = []) ∧
    (d.configHeader l = false → d.expectingHeader = false) := by
  cases h with
  | header _ _ he hfirst hlast hw hs hb =>
      have hconf : d.configHeader l = true := by
        rw [Disp.configHeader, he, hfirst]
        rfl
      refine ⟨?_, ?_, fun h => hlast (Bool.and_eq_true_iff.mp h).2, fun h => ?_⟩
      · rw [Disp.label, hconf, if_pos rfl, hs, hw]
      · rw [Disp.activeBytes, hconf, if_pos rfl, DispLine.headerRequestBytes, hw, if_neg happ, hs, hb]
      · rw [hconf] at h
        cases h
  | within _ _ he hw hs hb =>
      have hconf : d.configHeader l = false := by
        rw [Disp.configHeader, he]
        rfl
      refine ⟨?_, ?_, fun h => ?_, fun _ => he⟩
      · rw [Disp.label, hconf, if_neg Bool.noConfusion, hs, hw]
      · rw [Disp.activeBytes, hconf, if_neg Bool.noConfusion, hb]
      · rw [hconf] at h
        cases h

/-- With as many bytes to go as the lines count, the dispatcher expects a header again after the last
    line, and counts on before. -/
theorem track_active (hr : r.Rest ((l :: ls).map r.rx))
    (hactive : (d.activeBytes l).toNat = packetBytes ((l :: ls).map r.rx))
    (hlast : (d.configHeader l && l.requestLast) = true → l.tlast = true → ls = [])
    (hconf : d.configHeader l = false → d.expectingHeader = false) :
    (d.track l).1 = ls.isEmpty ∧
    (ls ≠ [] → (d.track l).2.toNat = packetBytes (ls.map r.rx)) := by
  have hbytes : packetBytes ((l :: ls).map r.rx) =
      (if l.tlast then l.length.toNat else 0) + packetBytes (ls.map r.rx) := rfl
  rw [hbytes] at hactive
  unfold Disp.track
  cases htl : l.tlast with
  | false =>
      have hne : ls ≠ [] := by
        rintro rfl
        have := hr.last (r.rx l) rfl
        rw [show (r.rx l).tlast = l.tlast from rfl, htl] at this
        cases this
      have hfalse : ls.isEmpty = false := by simpa using hne
      rw [htl, if_neg Bool.noConfusion, Nat.zero_add] at hactive
      rw [if_neg Bool.noConfusion, hfalse]
      cases hc : d.configHeader l with
      | true => exact ⟨rfl, fun _ => hactive⟩
      | false =>
          rw [Disp.activeBytes, hc, if_neg Bool.noConfusion] at hactive
          exact ⟨hconf hc, fun _ => hactive⟩
  | true =>
      rw [htl, if_pos rfl] at hactive
      have hlen : (l.length.setWidth 32).toNat = l.length.toNat := by
        have := l.length.isLt
        rw [BitVec.toNat_setWidth]
        exact Nat.mod_eq_of_lt (by omega)
      have hle : d.activeBytes l ≤ l.length.setWidth 32 ↔ packetBytes (ls.map r.rx) = 0 := by
        rw [BitVec.le_def, hlen, hactive]
        omega
      rw [if_pos rfl]
      cases ls with
      | nil =>
          rw [decide_eq_true (hle.mpr rfl), Bool.or_true, if_pos rfl]
          exact ⟨rfl, fun e => absurd rfl e⟩
      | cons l' ls =>
          have hpos := packetBytes_pos hr.tail (by simp)
          have hno : (d.configHeader l && l.requestLast) = false :=
            Bool.eq_false_iff.mpr fun e => by cases hlast e htl
          have hgt : ¬ d.activeBytes l ≤ l.length.setWidth 32 := fun e => by
            have := hle.mp e
            omega
          rw [hno, decide_eq_false hgt, Bool.or_false, if_neg Bool.noConfusion]
          refine ⟨rfl, fun _ => ?_⟩
          have hge : l.length.setWidth 32 ≤ d.activeBytes l := by
            rw [BitVec.le_def, hlen, hactive]
            omega
          rw [BitVec.toNat_sub_of_le hge, hlen, hactive]
          omega

/-- The dispatcher expects a header again after the last line, and counts on before. -/
theorem track_spec (h : Tracking r d (l :: ls)) (hr : r.Rest ((l :: ls).map r.rx))
    (happ : r.workload ≠ reconfApp) :
    (d.track l).1 = ls.isEmpty ∧
    (ls ≠ [] → (d.track l).2.toNat = packetBytes (ls.map r.rx)) := by
  obtain ⟨-, hactive, hlast, hconf⟩ := tracking_active h happ
  exact track_active hr hactive hlast hconf

/-- **A line sent leaves with the request's label**, and the dispatcher keeps track. -/
theorem tracking_send (h : Tracking r d (l :: ls)) (hr : r.Rest ((l :: ls).map r.rx))
    (happ : r.workload ≠ reconfApp) (ready : Bool) :
    d.combine l = r.rx l ∧ Tracking r (d.edge (some l) ready) ls := by
  obtain ⟨hlabel, -⟩ := tracking_active h happ
  obtain ⟨hexp, hrem⟩ := track_spec h hr happ
  refine ⟨by rw [Disp.combine, hlabel]; rfl, ?_⟩
  cases ls with
  | nil => exact .between hexp
  | cons l' ls =>
      refine .within l' ls hexp ?_ ?_ (hrem (by simp)).symm
      · show (d.label l).2 = _
        rw [hlabel]
      · show (d.label l).1 = _
        rw [hlabel]

theorem tracking_idle (h : Tracking r d ls) (ready : Bool) : Tracking r (d.edge none ready) ls := by
  cases h with
  | between he => exact .between he
  | header l ls he hfirst hlast hw hs hb => exact .header l ls he hfirst hlast hw hs hb
  | within l ls he hw hs hb => exact .within l ls he hw hs hb

end Tracking

/-! ## 5. From the first line sent to the last beat out -/

/-- The beats of the current request the scheduler has not accepted. -/
def SegSys.ahead (y : SegSys n τ) (r : Label) : List (RxBeat τ) :=
  y.front.disp.inflight ++ y.todo.map r.rx

/-- The beats behind the mux: in the pipeline and the output FIFO. -/
def Sched.leaving (s : Sched n τ) : List (QBeat τ) := s.fifoOut.items ++ s.pipe.items

/-- **Where the current request is**: with what has left, what is on its way out, what the
    scheduler holds and what is still ahead of it, everything due is accounted for, in order. -/
structure SegInv (z : Fin n) (r : Label) (bs : List (RxBeat τ)) (m : Nat) (y : SegSys n τ) :
    Prop where
  proper : r.connid ≠ BitVec.allOnes 16
  app : r.workload ≠ reconfApp
  tracking : Tracking r y.front.disp y.todo
  short : y.front.disp.fifo.items.length ≤ y.front.disp.fifo.recent.count true + 1
  rest : r.Rest (y.ahead r)
  calm : Calm z y.front.sched
  phase : Phase r z y.front.sched (y.ahead r) bs m
  due : y.out ++ (y.front.sched.leaving ++ r.beats (bs ++ y.ahead r)) = y.due
  fits : y.front.sched.leaving.length + (bs ++ y.ahead r).length ≤ fifoDepth

theorem segInv_init [Inhabited τ] (z : Fin n) : SegInv z ⟨0, 0, 0⟩ [] 0 (SegSys.init n τ) where
  proper := by decide
  app := by decide
  tracking := .between rfl
  short := Nat.zero_le _
  rest := rest_nil
  calm := ⟨rfl, rfl, fun _ _ => rfl, fun _ _ => rfl, fun _ _ => rfl, fun _ _ => rfl, fun _ _ => rfl,
    fun _ _ => rfl⟩
  phase := .rest [] ⟨rfl, rfl, rfl, rfl⟩ ⟨rfl, rfl⟩ (Or.inl rfl)
  due := by
    show [] ++ (([] : List (QBeat τ)) ++ (Delay.empty : Delay pipeLength (QBeat τ)).items ++ []) = []
    rw [Delay.empty_items]
    rfl
  fits := by
    show (([] : List (QBeat τ)) ++ (Delay.empty : Delay pipeLength (QBeat τ)).items).length + 0 ≤ _
    rw [Delay.empty_items]
    exact Nat.zero_le _

omit [FifoKind] in
/-- A label's beats say nothing of a label when there are none. -/
theorem beats_eq_nil {r : Label} {bs : List (RxBeat τ)} (h : r.beats bs = []) : bs = [] := by
  cases bs with
  | nil => rfl
  | cons b bs => cases h

section Begin

variable {z : Fin n} {r : Label} {bs : List (RxBeat τ)} {m : Nat} {y : SegSys n τ}

/-- **A request begins where the one before has left.** -/
theorem segInv_begin (h : SegInv z r bs m y) (q : AppRequest τ) (htodo : y.todo = [])
    (hout : y.out = y.due) :
    ∃ m', SegInv z q.label [] m' (y.begin (some q)) := by
  have hnil : y.front.sched.leaving ++ r.beats (bs ++ y.ahead r) = [] := by
    have hdue := h.due
    rw [← hout] at hdue
    exact List.append_right_eq_self.mp hdue
  obtain ⟨hleave, hbeats⟩ := List.append_eq_nil_iff.mp hnil
  obtain ⟨rfl, hahead⟩ := List.append_eq_nil_iff.mp (beats_eq_nil hbeats)
  have hinfl : y.front.disp.inflight = [] := (List.append_eq_nil_iff.mp hahead).1
  have hahead' : (y.begin (some q)).ahead q.label = q.lines.map q.label.rx := by
    show y.front.disp.inflight ++ _ = _
    rw [hinfl]
    rfl
  obtain ⟨l, ls, hl, hpay, hlast⟩ := lines_header q
  have hphase := h.phase
  rw [hahead] at hphase
  have hidle : QueueIdle z y.front.sched ∧ SingleIdle y.front.sched := by
    cases hphase with
    | rest _ hq hs _ => exact ⟨hq, hs⟩
    | gather _ _ hus => exact absurd rfl hus
    | full _ hbs => cases hbs
    | read _ hbs => exact absurd rfl hbs
  have hexp : y.front.disp.expectingHeader = true := by
    have := h.tracking
    rw [htodo] at this
    cases this with
    | between he => exact he
  have hheader : ∀ b ∈ (q.lines.map q.label.rx).head?, b.isHeader = true := fun b hb => by
    rw [hl] at hb
    cases hb
    show l.payload.getLsbD 480 = true
    rw [hpay]
    exact q.first
  have hphase' := Phase.rest (r := q.label) (q.lines.map q.label.rx) hidle.1 hidle.2
    (Or.inr ⟨lines_bytes q, hheader⟩)
  rw [← hahead'] at hphase'
  refine ⟨_, q.session, q.workload, ?_, h.short, ?_, h.calm, hphase', ?_, ?_⟩
  · show Tracking q.label y.front.disp q.lines
    rw [hl]
    refine .header l ls hexp ?_ hlast ?_ ?_ ?_
    · rw [DispLine.requestFirst, hpay]
      exact q.first
    · rw [DispLine.headerWorkload, hpay]
      rfl
    · rw [DispLine.headerPacketSize, hpay]
      exact q.size
    · rw [← hl]
      exact lines_bytes q
  · rw [hahead']
    exact lines_rest q
  · show y.out ++ (y.front.sched.leaving ++ q.label.beats _) = y.due ++ q.beats
    rw [hahead', hleave, hout]
    show y.due ++ q.label.beats (q.lines.map q.label.rx) = _
    rw [lines_beats]
  · show y.front.sched.leaving.length + _ ≤ _
    rw [hahead', hleave, List.nil_append]
    exact (Nat.zero_add _).symm ▸ (lines_length q).trans FifoKind.holds

end Begin

section Edge

variable {z : Fin n} {r : Label} {bs : List (RxBeat τ)} {m : Nat} {y : SegSys n τ} {i : SegIn τ}

/-- The line sent at an edge. -/
def SegSys.sent (y : SegSys n τ) (i : SegIn τ) : Option (DispLine τ) :=
  if i.send then y.todo.head? else none

theorem sent_todo (y : SegSys n τ) (i : SegIn τ) : (y.sent i).toList ++ (y.edge i).todo = y.todo := by
  show (y.sent i).toList ++ (if i.send then y.todo.tail else y.todo) = y.todo
  unfold SegSys.sent
  cases i.send with
  | false => rfl
  | true => cases y.todo <;> rfl

theorem segSys_sched (y : SegSys n τ) (i : SegIn τ) :
    (y.edge i).front.sched = y.front.sched.edge y.front.schedRx i.txTready := rfl

/-- The scheduler is offered the dispatcher's oldest beat, and takes it. -/
theorem front_ready (h : SegInv z r bs m y) (ready : Bool) :
    y.front.schedRx = y.front.disp.fifo.head? ∧ y.front.dispReady ready = true := by
  have hrx : ∀ b ∈ y.front.disp.fifo.head?, b.workload ≠ reconfApp := fun b hb => by
    have hmem : b ∈ y.ahead r := List.mem_append_left _ (List.mem_append_left _
      (List.mem_of_mem_head? (StreamFifo.head_of_head? hb)))
    rw [(h.rest.on b hmem).workload]
    exact h.app
  unfold Front.schedRx Front.dispReady
  cases hb : y.front.disp.fifo.head? with
  | none => exact ⟨rfl, h.calm.rxTready⟩
  | some b =>
      have hne := hrx b hb
      simp [hne, h.calm.rxTready]

theorem disp_edge (h : SegInv z r bs m y) (i : SegIn τ) :
    (y.edge i).front.disp = y.front.disp.edge (y.sent i) true := by
  rw [← (front_ready h i.reconfReady).2]
  rfl

/-- The dispatcher after an edge: the beats ahead of the scheduler are fewer by the one it took. -/
theorem ahead_edge (h : SegInv z r bs m y) (i : SegIn τ) :
    y.front.disp.fifo.head?.toList ++ (y.edge i).ahead r = y.ahead r ∧
    Tracking r (y.edge i).front.disp (y.edge i).todo ∧
    (y.edge i).front.disp.fifo.items.length ≤ (y.edge i).front.disp.fifo.recent.count true + 1 := by
  have hdisp := disp_edge h i
  have hwritten : y.front.disp.fifo.written y.front.disp.offered = y.front.disp.offered :=
    if_pos (Fifo.tready_iff.mpr (Nat.lt_of_le_of_lt (StreamFifo.length_of_short h.short) FifoKind.deep))
  have hfifo := StreamFifo.edge_items y.front.disp.fifo y.front.disp.offered true
  rw [hwritten, StreamFifo.popped_true] at hfifo
  have hsend : (y.sent i).map y.front.disp.combine = (y.sent i).map r.rx ∧
      Tracking r (y.front.disp.edge (y.sent i) true) (y.edge i).todo := by
    have htodo := sent_todo y i
    cases hs : y.sent i with
    | none =>
        rw [hs] at htodo
        rw [show (y.edge i).todo = y.todo from htodo]
        exact ⟨rfl, tracking_idle h.tracking true⟩
    | some l =>
        rw [hs] at htodo
        have htrack := h.tracking
        have hrest : r.Rest ((l :: (y.edge i).todo).map r.rx) := by
          have hre := h.rest
          rw [SegSys.ahead, ← htodo] at hre
          exact hre.suffix _
        rw [← htodo] at htrack
        obtain ⟨hcomb, htr⟩ := tracking_send htrack hrest h.app true
        exact ⟨by rw [Option.map_some, Option.map_some, hcomb], htr⟩
  refine ⟨?_, by rw [hdisp]; exact hsend.2, ?_⟩
  · rw [SegSys.ahead, hdisp, inflight_edge, hsend.1, ← List.append_assoc, ← List.append_assoc, hfifo,
      SegSys.ahead, ← sent_todo y i, List.map_append, ← List.append_assoc]
    cases y.sent i <;> rfl
  · rw [hdisp, fifo_edge]
    exact StreamFifo.edge_short h.short _

/-- Behind the mux nothing is lost, where the output FIFO has room for what is in the pipeline. -/
theorem leaving_edge {s : Sched n τ} (hfit : s.leaving.length ≤ fifoDepth) (rx : Option (RxBeat τ))
    (t : Bool) :
    (s.tx t).toList ++ (s.edge rx t).leaving = s.leaving ++ s.forwarded.toList := by
  have hshift := Delay.shift_items s.pipe (by decide) s.forwarded
  have hwritten : s.fifoOut.written s.pipe.last = s.pipe.last := by
    cases hl : s.pipe.last with
    | none => exact Fifo.written_none _
    | some x =>
        refine Fifo.written_some (Fifo.tready_iff.mpr ?_) x
        have hpos := List.length_pos_of_mem (Delay.mem_of_last hl)
        rw [Sched.leaving, List.length_append] at hfit
        omega
  have hout := StreamFifo.edge_items s.fifoOut s.pipe.last t
  rw [hwritten] at hout
  show (s.fifoOut.popped t).toList ++
    ((s.fifoOut.edge s.pipe.last t).items ++ (s.pipe.shift s.forwarded).items) = _
  rw [← List.append_assoc, hout, List.append_assoc, hshift, ← List.append_assoc]
  rfl

/-- **An edge keeps everything due accounted for**, and brings the request on. -/
theorem segInv_edge (hz : z.val = 0) (hn : n < 256) (h : SegInv z r bs m y) (i : SegIn τ) :
    ∃ bs' m', SegInv z r bs' m' (y.edge i) ∧ m' ≤ m ∧ (y.ahead r = [] → m' ≤ m - 1) := by
  obtain ⟨hrx, -⟩ := front_ready h i.reconfReady
  obtain ⟨hahead, htrack, hshort⟩ := ahead_edge h i
  have hfits := h.fits
  have hstep : Advances r z y.front.sched (y.edge i).front.sched (y.ahead r) bs m
      ((y.edge i).ahead r) := by
    refine phase_edge hz hn h.proper h.phase h.calm h.rest (by omega) ?_ i.txTready
    rw [hrx, ← hahead]
    cases y.front.disp.fifo.head? with
    | none => exact Or.inl ⟨rfl, rfl⟩
    | some b => exact Or.inr ⟨b, rfl, rfl⟩
  obtain ⟨hcalm, bs', m', hphase, hbeats, hm, hm'⟩ := hstep
  have hleave := leaving_edge (s := y.front.sched) (by omega) y.front.schedRx i.txTready
  refine ⟨bs', m', ⟨h.proper, h.app, htrack, hshort, ?_, hcalm, hphase, ?_, ?_⟩, hm, hm'⟩
  · have hre := h.rest
    rw [← hahead] at hre
    exact hre.suffix _
  · show (y.out ++ (y.front.sched.tx i.txTready).toList) ++
      ((y.front.sched.edge y.front.schedRx i.txTready).leaving ++ _) = y.due
    rw [← h.due, ← hbeats, List.append_assoc, ← List.append_assoc (y.front.sched.tx _).toList, hleave,
      List.append_assoc]
  · have hl := congrArg List.length hleave
    have hb := congrArg List.length hbeats
    simp only [List.length_append, beats_length] at hl hb hfits ⊢
    rw [segSys_sched]
    omega

end Edge

/-! ## 6. Every run, and its end -/

/-- An edge at which no request begins. -/
structure SegIn.Quiet (i : SegIn τ) : Prop where
  rst : i.rst = false
  start : i.start = none

theorem clock_quiet [Inhabited τ] {i : SegIn τ} (h : i.Quiet) (y : SegSys n τ) :
    y.clock i = y.edge i := by
  rw [SegSys.clock, h.rst, h.start]
  rfl

/-- The edges until the scheduler has taken what the dispatcher holds. -/
def Disp.wait (d : Disp τ) : Nat :=
  if d.combinedValid then FifoKind.latency + 2
  else if d.fifo.items.isEmpty then 0
  else d.fifo.settling + 1

section Wait

variable {d : Disp τ}

theorem wait_le (d : Disp τ) : d.wait ≤ FifoKind.latency + 2 := by
  have := d.fifo.settling_le
  unfold Disp.wait
  split_ifs <;> omega

theorem inflight_of_wait (h : d.wait = 0) : d.inflight = [] := by
  unfold Disp.wait at h
  split_ifs at h with hv hempty
  rw [Disp.inflight, List.isEmpty_iff.mp hempty, Disp.offered, if_neg hv]
  rfl

/-- An edge at which no line arrives and the scheduler takes what it is shown. -/
theorem wait_edge (h : d.fifo.items.length ≤ d.fifo.recent.count true + 1) :
    (d.edge none true).wait ≤ d.wait - 1 := by
  have hwait : (d.edge none true).wait = if (d.fifo.edge d.offered true).items.isEmpty then 0
      else (d.fifo.edge d.offered true).settling + 1 := rfl
  rw [hwait, Disp.wait]
  cases hv : d.combinedValid with
  | true =>
      have := (d.fifo.edge d.offered true).settling_le
      rw [if_pos rfl]
      split <;> omega
  | false =>
      have hoff : d.offered = none := by
        rw [Disp.offered, hv]
        rfl
      rw [if_neg Bool.false_ne_true, hoff, StreamFifo.settling_edge]
      cases hempty : d.fifo.items.isEmpty with
      | true => rw [StreamFifo.edge_items_empty (List.isEmpty_iff.mp hempty)]; rfl
      | false =>
          rw [if_neg Bool.false_ne_true]
          by_cases hzero : d.fifo.settling = 0
          · rw [StreamFifo.edge_items_drained hzero h]
            exact Nat.zero_le _
          · split <;> omega

end Wait

section Phase

variable {z : Fin n} {r : Label} {s : Sched n τ} {us bs : List (RxBeat τ)} {m : Nat}

theorem phase_bound (h : Phase r z s us bs m) : m ≤ (bs ++ us).length + 3 + FifoKind.latency := by
  have hqueue := (s.fifo z).settling_le
  have hsingle := s.fifoSingle.settling_le
  rw [List.length_append]
  cases h with
  | rest us => split <;> simp
  | gather us bs => rw [List.length_append]
  | full bs => rw [List.length_nil]; omega
  | read bs => rw [List.length_nil]; split <;> omega
  | strobed b => rw [List.length_singleton]; omega
  | stored b => rw [List.length_singleton]; split <;> omega

/-- With no edge left nothing is held and nothing is ahead. -/
theorem phase_done (h : Phase r z s us bs m) (hm : m = 0) :
    us = [] ∧ bs = [] ∧ QueueIdle z s ∧ SingleIdle s := by
  cases h with
  | rest us hq hs =>
      refine ⟨?_, rfl, hq, hs⟩
      by_contra hus
      rw [if_neg hus] at hm
      omega
  | gather us bs => omega
  | full bs => omega
  | read bs hbs =>
      have := List.length_pos_of_ne_nil hbs
      omega
  | strobed b => omega
  | stored b => split at hm <;> omega

end Phase

/-- All lines are sent, and within `m` edges all are behind the mux. -/
def Draining (z : Fin n) (due : List (QBeat τ)) (m : Nat) (y : SegSys n τ) : Prop :=
  y.due = due ∧ y.todo = [] ∧ ∃ r bs k, SegInv z r bs k y ∧ k + y.front.disp.wait ≤ m

/-- All lines are sent, and within `m` edges all are in the output FIFO, old enough to be shown, or
    gone. -/
def Settling (z : Fin n) (due : List (QBeat τ)) (m : Nat) (y : SegSys n τ) : Prop :=
  Draining z due (m - (pipeLength + FifoKind.latency)) y ∧
    y.front.sched.pipe.Within (m - FifoKind.latency) ∧ y.front.sched.fifoOut.settling ≤ m

/-- The output FIFO holds all that has not left, at most `m` beats. -/
def Leaving (z : Fin n) (due : List (QBeat τ)) (m : Nat) (y : SegSys n τ) : Prop :=
  Settling z due 0 y ∧ y.front.sched.fifoOut.items.length ≤ m

section Drain

variable {z : Fin n} {due : List (QBeat τ)} {m : Nat} {y : SegSys n τ} {i : SegIn τ}

theorem draining_edge (hz : z.val = 0) (hn : n < 256) (h : Draining z due m y) (i : SegIn τ) :
    Draining z due (m - 1) (y.edge i) := by
  obtain ⟨hdue, htodo, r, bs, k, hinv, hk⟩ := h
  obtain ⟨bs', k', hinv', hle, hlt⟩ := segInv_edge hz hn hinv i
  have hsent : y.sent i = none := by
    rw [SegSys.sent, htodo]
    exact ite_self _
  have htodo' : (y.edge i).todo = [] := by
    have := sent_todo y i
    rw [hsent, htodo] at this
    exact this
  have hdisp := disp_edge hinv i
  rw [hsent] at hdisp
  have hwait := wait_edge hinv.short
  rw [← hdisp] at hwait
  refine ⟨hdue, htodo', r, bs', k', hinv', ?_⟩
  by_cases hzero : y.front.disp.wait = 0
  · have := hlt (by rw [SegSys.ahead, inflight_of_wait hzero, htodo]; rfl)
    omega
  · omega

theorem draining_zero (h : Draining z due 0 y) :
    ∃ r, SegInv z r [] 0 y ∧ y.ahead r = [] ∧ y.front.sched.forwarded = none := by
  obtain ⟨-, -, r, bs, k, hinv, hk⟩ := h
  obtain rfl : k = 0 := by omega
  obtain ⟨hus, rfl, hq, hs⟩ := phase_done hinv.phase rfl
  exact ⟨r, hinv, hus, forwarded_rest hinv.calm hq hs⟩

/-- Once the lines are sent, all are in the output FIFO or gone within `fifoDepth + 15` edges, and three
    times the latency. -/
theorem settling_start {r : Label} {bs : List (RxBeat τ)} (h : SegInv z r bs m y)
    (htodo : y.todo = []) : Settling z y.due (fifoDepth + 15 + 3 * FifoKind.latency) y := by
  have hwait := wait_le y.front.disp
  have hb := phase_bound h.phase
  have hf := h.fits
  refine ⟨⟨rfl, htodo, r, bs, m, h, ?_⟩, Delay.within_of_le _ ?_, ?_⟩
  · rw [pipeLength]
    omega
  · rw [pipeLength]
    omega
  · have := y.front.sched.fifoOut.settling_le
    omega

theorem settling_edge (hz : z.val = 0) (hn : n < 256) (h : Settling z due m y) (i : SegIn τ) :
    Settling z due (m - 1) (y.edge i) := by
  obtain ⟨hdrain, hwithin, hsettling⟩ := h
  refine ⟨?_, ?_, ?_⟩
  · rw [Nat.sub_right_comm]
    exact draining_edge hz hn hdrain i
  · rw [segSys_sched, edge_pipe, Nat.sub_right_comm]
    by_cases hm : pipeLength ≤ m - FifoKind.latency - 1
    · exact Delay.within_of_le _ hm
    · rw [show m - (pipeLength + FifoKind.latency) = 0 by omega] at hdrain
      obtain ⟨-, -, -, hfw⟩ := draining_zero hdrain
      rw [hfw]
      exact Delay.within_shift hwithin
  · rw [segSys_sched, edge_fifoOut]
    by_cases hm : m - FifoKind.latency = 0
    · rw [hm] at hwithin
      rw [Delay.last_within_zero hwithin, StreamFifo.settling_edge]
      omega
    · exact (StreamFifo.settling_le _).trans (by omega)

theorem leaving_edge_ready (hz : z.val = 0) (hn : n < 256) (h : Leaving z due m y) (i : SegIn τ) :
    Leaving z due (if i.txTready then m - 1 else m) (y.edge i) := by
  obtain ⟨hsettle, hlen⟩ := h
  refine ⟨settling_edge hz hn hsettle i, ?_⟩
  have hlast : y.front.sched.pipe.last = none := by
    have hwithin := hsettle.2.1
    rw [Nat.zero_sub] at hwithin
    exact Delay.last_within_zero hwithin
  rw [segSys_sched, edge_fifoOut, hlast]
  cases i.txTready with
  | false =>
      rw [StreamFifo.edge_items_none]
      simpa using hlen
  | true =>
      rw [StreamFifo.edge_items_settled (Nat.le_zero.mp hsettle.2.2), List.length_tail, if_pos rfl]
      omega

theorem leaving_zero (h : Leaving z due 0 y) : y.out = due := by
  obtain ⟨⟨hdrain, hwithin, -⟩, hlen⟩ := h
  rw [Nat.zero_sub] at hdrain hwithin
  obtain ⟨r, hinv, hahead, -⟩ := draining_zero hdrain
  have hdue := hinv.due
  rw [hahead, Sched.leaving, Delay.items_within_zero hwithin,
    List.length_eq_zero_iff.mp (Nat.le_zero.mp hlen), hdrain.1] at hdue
  simpa [Label.beats] using hdue

end Drain

theorem segInv_clock [Inhabited τ] {z : Fin n} (hz : z.val = 0) (hn : n < 256) {y : SegSys n τ}
    {i : SegIn τ} (h : ∃ r bs m, SegInv z r bs m y) (hp : y.Paced i) :
    ∃ r bs m, SegInv z r bs m (y.clock i) := by
  obtain ⟨r, bs, m, h⟩ := h
  unfold SegSys.clock
  split
  · exact ⟨_, _, _, segInv_init z⟩
  have hbegin : ∃ r bs m, SegInv z r bs m (y.begin i.start) := by
    cases hs : i.start with
    | none => exact ⟨r, bs, m, h⟩
    | some q =>
        obtain ⟨htodo, hout⟩ := hp (by rw [hs]; rfl)
        obtain ⟨m', h'⟩ := segInv_begin h q htodo hout
        exact ⟨_, _, _, h'⟩
  obtain ⟨r', bs', m', h'⟩ := hbegin
  obtain ⟨bs'', m'', h'', -⟩ := segInv_edge hz hn h' i
  exact ⟨_, _, _, h''⟩

/-- **Reassembly does not depend on segmentation.** For every sequence of requests, each begun when
    the one before has left, every cut of each into packets, every pattern of idle cycles and every
    pattern of `tx_tready`: what has left on `tx` is at any time a beginning of the requests' lines,
    labelled and in order; and once the lines of the last request are sent, after `fifoDepth + 15` edges,
    three times the FIFOs' latency, and `fifoDepth` more edges at which `tx` is ready, exactly these
    lines have left. -/
theorem reassembly_exact [Inhabited τ] (h0 : 0 < n) (hn : n < 256) {y : SegSys n τ}
    (hr : Reachable SegSys.clock SegSys.Paced (SegSys.init n τ) y) :
    y.out <+: y.due ∧
    (y.todo = [] → ∀ is js : List (SegIn τ), (∀ i ∈ is ++ js, i.Quiet) →
      fifoDepth + 15 + 3 * FifoKind.latency ≤ is.length →
      fifoDepth ≤ js.countP (·.txTready) → (run SegSys.clock y (is ++ js)).out = y.due) := by
  obtain ⟨r, bs, m, hinv⟩ := hr.invariant
    (P := fun y => ∃ r bs m, SegInv (⟨0, h0⟩ : Fin n) r bs m y)
    ⟨_, _, _, segInv_init _⟩ fun y i h hp => segInv_clock rfl hn h hp
  refine ⟨⟨_, hinv.due⟩, fun htodo is js hq his hjs => ?_⟩
  have hstart := settling_start hinv htodo
  have hclock : ∀ m (y' : SegSys n τ) i, Settling ⟨0, h0⟩ y.due m y' → i.Quiet →
      Settling ⟨0, h0⟩ y.due (if (fun _ => true) i then m - 1 else m) (y'.clock i) :=
    fun m y' i h hi => by
      rw [clock_quiet hi]
      exact settling_edge rfl hn h i
  have hsettled := run_countdown hclock hstart is fun i hi => hq i (List.mem_append_left _ hi)
  rw [List.countP_true, Nat.sub_eq_zero_of_le his] at hsettled
  have hclock' : ∀ m (y' : SegSys n τ) i, Leaving ⟨0, h0⟩ y.due m y' → i.Quiet →
      Leaving ⟨0, h0⟩ y.due (if i.txTready then m - 1 else m) (y'.clock i) := fun m y' i h hi => by
    rw [clock_quiet hi]
    exact leaving_edge_ready rfl hn h i
  have hleft := run_countdown hclock' ⟨hsettled, Fifo.bound _⟩ js
    fun i hi => hq i (List.mem_append_right _ hi)
  rw [Nat.sub_eq_zero_of_le hjs] at hleft
  rw [run_append]
  exact leaving_zero hleft

end Front

/-- A header and a line of ones, in a packet each. -/
def twoPackets : AppRequest Unit where
  connid := 7
  packets := [[(BitVec.ofNat 512 (2 ^ 480 + 128 * 2 ^ 448), ())], [(BitVec.allOnes 512, ())]]
  session := by decide
  cut := by decide
  atLeast := by decide
  atMost := by decide
  first := by decide +kernel
  last := by decide +kernel
  size := by decide +kernel
  workload := by decide +kernel

/-- No line, and `tx` ready. -/
def noLine : SegIn Unit := ⟨false, none, false, true, true⟩

/-- The request begins with its first line; the second follows after two idle cycles. -/
def twoPacketRun : List (SegIn Unit) :=
  [⟨false, some twoPackets, true, false, true⟩, noLine, noLine, ⟨false, none, true, false, true⟩]

section Ideal

attribute [local instance] idealFifos

theorem reassembly_exact_two_packets :
    twoPackets.beats.length = 2 ∧
    (run SegSys.clock (run SegSys.clock (SegSys.init 2 Unit) twoPacketRun)
      (List.replicate 527 noLine ++ List.replicate 512 noLine)).out = twoPackets.beats := by
  have hr : Reachable SegSys.clock SegSys.Paced (SegSys.init 2 Unit)
      (run SegSys.clock (SegSys.init 2 Unit) twoPacketRun) :=
    Reachable.of_run twoPacketRun ⟨fun _ => ⟨rfl, rfl⟩, Bool.noConfusion, Bool.noConfusion,
      Bool.noConfusion, trivial⟩
  refine ⟨rfl, (reassembly_exact (by decide) (by decide) hr).2 rfl _ _ (fun i hi => ?_) ?_ ?_⟩
  · have hi' : i = noLine := by
      rcases List.mem_append.mp hi with h | h <;> exact List.eq_of_mem_replicate h
    rw [hi']
    exact ⟨rfl, rfl⟩
  · rw [List.length_replicate]
    decide
  · rw [List.countP_replicate]
    decide

end Ideal

end Frac.Reassembly
