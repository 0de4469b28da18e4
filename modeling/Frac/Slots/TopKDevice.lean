/-
  File:      Frac/Slots/TopKDevice.lean
  Subject:   `top_k.v` behind dispatcher and scheduler: what it answers to a request, word by word.

  * `requestStream` -- a request as the slot gets it;
  * `topKClean` -- the module with nothing left of an earlier request; `topKServes` -- **it answers a
    request with its largest words**, `topK_answers` -- and so does the device.
-/
import Frac.Slots.Lengths
import Frac.Slots.TopKStream

namespace Frac.Slots

open Clocked Reassembly

/-! ## 1. A request as the slot gets it -/

/-- The lines of a request with their meta. -/
def slotLines (q : AppRequest Unit) : List SlotLine :=
  q.packets.flatten.map fun x => ⟨BitVec.ofNat 16 (64 * q.packets.flatten.length), q.connid, x.1⟩

/-- **A request as the slot gets it.** -/
def requestStream (q : AppRequest Unit) : StreamRequest :=
  ⟨⟨BitVec.ofNat 16 (64 * q.packets.flatten.length), q.connid, headerLine q.packets⟩, (slotLines q).tail⟩

theorem requestStream_lines (q : AppRequest Unit) : (requestStream q).lines = slotLines q := by
  have hpos := q.atLeast
  rw [StreamRequest.lines, requestStream, slotLines, headerLine]
  generalize q.packets.flatten.length = len
  cases hline : q.packets.flatten with
  | nil =>
      rw [hline] at hpos
      exact absurd hpos (Nat.not_succ_le_zero 0)
  | cons x xs => rfl

theorem outBeats_lineBeats (workload size connid : BitVec 16) (xs : List (BitVec 512 × Unit)) :
    (outBeats workload size connid xs).map SlotBeat.ofQueue = lineBeats (xs.map fun x => ⟨size, connid, x.1⟩) := by
  induction xs with
  | nil => rfl
  | cons x xs ih =>
      rw [outBeats, List.map_cons, ih, List.map_cons, lineBeats, List.isEmpty_map]
      rfl

theorem slotBeats_stream (q : AppRequest Unit) : slotBeats q = (requestStream q).beats := by
  rw [StreamRequest.beats, requestStream_lines, slotLines, slotBeats, AppRequest.beats, outBeats_lineBeats]

/-- Behind `j` lines. -/
theorem lineBeats_drop (ls : List SlotLine) (j : Nat) : (lineBeats ls).drop j = lineBeats (ls.drop j) := by
  induction ls generalizing j with
  | nil => rw [lineBeats, List.drop_nil, List.drop_nil, lineBeats]
  | cons l ls ih =>
      cases j with
      | zero => rfl
      | succ j => rw [lineBeats, List.drop_succ_cons, List.drop_succ_cons, ih]

/-! ## 2. The service -/

/-- `top_k` with nothing left of an earlier request: so it is after a reset and after every answer. -/
def topKClean : SlotModule := { topK with Idle := TopK.Clean }

section Service

variable {r : StreamRequest}

/-- **Where the request `r` is** once `j` of its beats are taken. -/
inductive TopKAnswering (r : StreamRequest) : Nat → TopK → List SlotBeat → Prop where
  | fresh {s} (hs : s.Clean) : TopKAnswering r 0 s []
  | busy {j s post} (ha : s.Active r) (hh : s.Holds r post) (hpost : r.lines.drop j = post)
      (hj : j ≤ r.lines.length) : TopKAnswering r j s []
  | done {s} (hs : s.Clean) : TopKAnswering r r.lines.length s [r.topAnswer]

/-- A take costs at most 17 edges of unpacking, the response one more. -/
def answerRank (r : StreamRequest) (j : Nat) (s : TopK) : Nat := 18 * (r.lines.length - j) + s.load

/-- What an edge owes to the request. -/
def TopKServe (r : StreamRequest) (j : Nat) (s : TopK) (out : List SlotBeat) (o : Option SlotBeat) (t : Bool) : Prop :=
  Advance topKClean r.beats (TopKAnswering r) (answerRank r) j s out o t ()

/-- The module is ready and offered nothing. -/
theorem serve_gap {j : Nat} {s : TopK} {out : List SlotBeat} (h : TopKAnswering r j s out) (hu : s.unpacking = false)
    (hr : s.respValid = false) (t : Bool) (hdone : r.beats[j]? = none → answerRank r j s = 0) :
    TopKServe r j s out none t := by
  have hedge : topKClean.edge s none t () = s := topK_wait hu hr t
  refine .silent (topK_taken hu hr none t) (topK_quiet (by rw [hr, Bool.false_and]) none) (by rw [hedge]; exact h)
    (by rw [hedge]) fun hnone _ h0 => absurd (hdone hnone.symm) h0

/-- The module is ready and takes the next line, which leaves it with the lines `post`. -/
theorem serve_take {j : Nat} {s : TopK} {l : SlotLine} {post : List SlotLine} (hu : s.unpacking = false)
    (hr : s.respValid = false) (hdrop : r.lines.drop j = l :: post)
    (hnext : (s.take (l.beat post.isEmpty) s).Active r ∧ (s.take (l.beat post.isEmpty) s).Holds r post) (t : Bool) :
    TopKServe r j s [] (some (l.beat post.isEmpty)) t := by
  have hedge : topKClean.edge s (some (l.beat post.isEmpty)) t () = s.take (l.beat post.isEmpty) s := topK_taking hu hr _ t
  have hload := load_take hu hr (l.beat post.isEmpty)
  have hlen := congrArg List.length hdrop
  rw [List.length_drop, List.length_cons] at hlen
  have htaken : topKClean.taken s (some (l.beat post.isEmpty)) t = some (l.beat post.isEmpty) :=
    topK_taken hu hr _ t
  have hsent : topKClean.sent s (some (l.beat post.isEmpty)) t = none :=
    topK_quiet (by rw [hr, Bool.false_and]) (some (l.beat post.isEmpty))
  refine .take htaken hsent ?_ ?_
  · rw [hedge]
    refine .busy hnext.1 hnext.2 ?_ (by omega)
    rw [← List.drop_drop, hdrop]
    rfl
  · rw [hedge, answerRank, answerRank, load_ready hu hr]
    omega

theorem beats_getElem? (r : StreamRequest) (j : Nat) : r.beats[j]? = (lineBeats (r.lines.drop j)).head? := by
  rw [← lineBeats_drop, List.head?_drop]
  rfl

/-- **One edge.** -/
theorem topK_serve {j : Nat} {s : TopK} {out : List SlotBeat} (h : TopKAnswering r j s out) (o : Option SlotBeat)
    (t : Bool) (ho : o = none ∨ o = r.beats[j]?) : TopKServe r j s out o t := by
  have hinv := h
  cases h with
  | fresh hs =>
      cases o with
      | none =>
          refine serve_gap hinv hs.idle.unpacking hs.idle.respValid t fun hnone => ?_
          cases hnone
      | some b =>
          obtain rfl : b = r.first.beat r.more.isEmpty := Option.some.inj (ho.resolve_left (Option.some_ne_none b))
          exact serve_take hs.idle.unpacking hs.idle.respValid rfl (holds_first hs r) t
  | @busy _ _ post ha hh hpost hj =>
      cases hh with
      | line hdata hu hr hline hlast hranks =>
          have hedge : topKClean.edge s o t () = s.unpack s := topK_unpacking hu hr o t
          have hload := load_unpack hu hr
          refine .silent (topK_busy (by rw [hu, Bool.true_or]) o t) (topK_quiet (by rw [hr, Bool.false_and]) o) ?_ ?_ ?_
          · rw [hedge]
            exact .busy ⟨ha.frameActive, ha.session, ha.kmask⟩ (holds_unpack hdata hu hr hline hlast hranks) hpost hj
          · rw [hedge, answerRank, answerRank]
            omega
          · intro _ _ _
            rw [hedge, answerRank, answerRank]
            omega
      | between hdata hne hu hr hranks =>
          cases post with
          | nil => exact absurd rfl hne
          | cons l post =>
              have hnext : r.beats[j]? = some (l.beat post.isEmpty) := by
                rw [beats_getElem?, hpost]
                rfl
              cases o with
              | none =>
                  refine serve_gap hinv hu hr t fun hnone => ?_
                  rw [hnext] at hnone
                  cases hnone
              | some b =>
                  obtain rfl : b = l.beat post.isEmpty :=
                    Option.some.inj ((ho.resolve_left (Option.some_ne_none b)).trans hnext)
                  exact serve_take hu hr hpost (holds_later ha hdata hr hranks) t
      | answer hu hr hranks =>
          have hall : j = r.lines.length := by
            have hlen := congrArg List.length hpost
            rw [List.length_drop, List.length_nil] at hlen
            omega
          have hnone : topKClean.taken s o t = none := topK_busy (by rw [hr, Bool.or_true]) o t
          cases t with
          | false =>
              have hedge : topKClean.edge s o false () = s := topK_stalled hu hr o
              refine .silent hnone (topK_quiet (Bool.and_false _) o) (by rw [hedge]; exact hinv) (by rw [hedge])
                fun _ hw => ?_
              rw [show topKClean.willing s false () = (!s.respValid || false) from rfl, hr] at hw
              cases hw
          | true =>
              have hedge : topKClean.edge s o true () = s.clear := topK_accepted hu hr o
              have hclear : s.clear.load = 0 := load_ready hu rfl
              refine .send hnone (topK_sends hr o) ?_ ?_
              · rw [hedge, response_answer ha hranks, hall]
                exact .done ⟨⟨hu, rfl, rfl⟩, rfl, fun _ => rfl⟩
              · rw [hedge, answerRank, answerRank, hclear, load_answer hu hr]
                exact Nat.lt_succ_self _
  | done hs =>
      have hrank : answerRank r r.lines.length s = 0 := by
        rw [answerRank, load_ready hs.idle.unpacking hs.idle.respValid, Nat.sub_self]
      have hnil : r.beats[r.lines.length]? = none := by
        rw [beats_getElem?, List.drop_length]
        rfl
      obtain rfl : o = none := ho.elim id fun e => e.trans hnil
      exact serve_gap hinv hs.idle.unpacking hs.idle.respValid t fun _ => hrank

theorem topK_served {j : Nat} {s : TopK} {out : List SlotBeat} (h : TopKAnswering r j s out) (h0 : answerRank r j s = 0) :
    out = [r.topAnswer] ∧ s.Clean := by
  obtain ⟨hleft, hload⟩ := Nat.add_eq_zero_iff.mp h0
  cases h with
  | fresh => exact absurd hleft (by simp [StreamRequest.lines])
  | busy ha hh hpost hj =>
      exfalso
      cases hh with
      | line _ hu => exact absurd hload (load_line hu).ne'
      | between _ hne =>
          have hlen := congrArg List.length hpost
          have hpos := List.length_pos_iff.mpr hne
          rw [List.length_drop] at hlen
          omega
      | answer hu hr => exact absurd ((load_answer hu hr).symm.trans hload) Nat.one_ne_zero
  | done hs => exact ⟨rfl, hs⟩

/-- **`top_k` answers a request with its largest words.** -/
def topKServes (r : StreamRequest) : Service topKClean r.beats (· = [r.topAnswer]) where
  Inv := TopKAnswering r
  rank := answerRank r
  bound := 18 * r.lines.length
  start hs := ⟨.fresh hs, Nat.le_of_eq (congrArg (18 * r.lines.length + ·)
    (load_ready hs.idle.unpacking hs.idle.respValid))⟩
  edge hinv o t _ ho := topK_serve hinv o t ho
  finish hinv h0 := topK_served hinv h0

end Service

/-- **And so does the device**, to any request and from any idle state. -/
theorem topK_answers [FifoKind] {n : Nat} (h0 : 0 < n) (hn : n < 256) (q : AppRequest Unit) :
    Answers n topKClean q (· = [(requestStream q).topAnswer]) := by
  have S := topKServes (requestStream q)
  rw [← slotBeats_stream q] at S
  exact answers_of_service h0 hn S

end Frac.Slots
