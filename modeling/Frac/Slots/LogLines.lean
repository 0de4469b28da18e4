/-
  File:      Frac/Slots/LogLines.lean
  Subject:   `log.v` line by line, as its registers have it: which words of a request are issued, which
             results are packed, and what is sent. The cores are not part of it; all that is asked of
             them is that a result which is packed belongs to the next word.

  * `LogLoad`, `LogOffer` -- the words of a line are on their way, and its response is offered;
  * `LogPos` -- **where a request is**: the words `w` issued, `n` of them packed, `out` sent;
  * `logPos_edge` -- **one edge of it**, `logPos_first` -- its first beat.
-/
import Frac.Slots.Flight
import Frac.Slots.Log

namespace Frac.Slots

open Bits

/-! ## 1. A line -/

/-- What an edge does to the data of a line under way. -/
structure LogData (s : Log) (c : LogCores) (s' : Log) : Prop where
  line : s'.line = s.line
  acc : s'.acc = if s.resultFire c then setWord s.acc s.packIdx c.logResData else s.acc
  frameActive : s'.frameActive = s.frameActive
  respSession : s'.respSession = s.respSession
  reqBytes : s'.reqBytes = s.reqBytes
  sawHeader : s'.sawHeader = s.sawHeader

theorem log_data {s : Log} {o : Option SlotBeat} {t : Bool} (ht : s.tready = false)
    (hr : (s.respValid && t) = false) (c : LogCores) : LogData s c (s.edge o t c) := by
  unfold Log.edge
  rw [ht, hr]
  simp only [Bool.false_eq_true, if_false]
  refine ⟨?_, ?_, ?_, ?_, ?_, ?_⟩ <;>
    cases s.resultFire c <;> cases s.issueFire c <;> rfl

/-- The alignment FIFO is clocked at every edge. -/
theorem log_align (s : Log) (o : Option SlotBeat) (t : Bool) (c : LogCores) :
    (s.edge o t c).align = s.alignEdge c := by
  unfold Log.edge
  simp only
  split <;> rfl

/-- A beat that is not taken leaves no trace. -/
theorem log_blind {s : Log} (h : s.tready = false) (o : Option SlotBeat) (t : Bool) (c : LogCores) :
    s.edge o t c = s.edge none t c := by
  unfold Log.edge
  rw [h]
  rfl

/-- The word issued at an edge. -/
def Log.issued (s : Log) (c : LogCores) : Option (BitVec 32) :=
  if s.issueFire c then some (word s.line s.issueIdx) else none

/-- No line is under way. -/
structure Log.Rests (s : Log) : Prop where
  issuing : s.issuing = false
  awaiting : s.awaiting = false
  respValid : s.respValid = false
  outstanding : s.outstanding = 0
  packIdx : s.packIdx = 0

theorem Log.Idle.rests {s : Log} (h : s.Idle) : s.Rests :=
  ⟨h.issuing, h.awaiting, h.respValid, h.outstanding, h.packIdx⟩

/-- **The words of a line are on their way**: the first results are packed. -/
structure LogLoad (g : BitVec 32 → BitVec 32) (line : BitVec 512) (s : Log) : Prop where
  held : s.line = line
  words : Filling s.issuing s.issueIdx s.packIdx s.outstanding
  awaiting : s.awaiting = !s.issuing
  respValid : s.respValid = false
  flushed : s.flushCnt = 0
  packed : Packed g line s.packIdx.toNat s.acc

/-- **The response of a line is offered.** -/
structure LogOffer (g : BitVec 32 → BitVec 32) (line : BitVec 512) (last : Bool) (s : Log) : Prop where
  issuing : s.issuing = false
  awaiting : s.awaiting = false
  respValid : s.respValid = true
  respLast : s.respLast = last
  outstanding : s.outstanding = 0
  packIdx : s.packIdx = 0
  flushed : s.flushCnt = 0
  acc : s.acc = mapWords g line

section Line

variable {g : BitVec 32 → BitVec 32} {line : BitVec 512} {last : Bool} {s : Log}

theorem log_flushed (h : s.flushCnt = 0) (o : Option SlotBeat) (t : Bool) (c : LogCores) :
    (s.edge o t c).flushCnt = 0 := by
  refine BitVec.eq_of_toNat_eq ?_
  rw [log_flush, h]
  rfl

theorem logLoad_tready (h : LogLoad g line s) : s.tready = false := by
  rw [Log.tready, h.awaiting]
  cases s.issuing <;> rfl

theorem logOffer_tready (h : LogOffer g line last s) : s.tready = false := by
  rw [Log.tready, h.respValid, Bool.not_true, Bool.and_false]
  rfl

theorem rests_issued (h : s.issuing = false) (c : LogCores) : s.issued c = none := by
  rw [Log.issued, Log.issueFire, h]
  rfl

theorem rests_unowed (h : s.outstanding = 0) (c : LogCores) : s.resultFire c = false := by
  rw [Log.resultFire, h]
  exact Bool.and_false _

/-- **One edge of a line whose words are on their way**: a result that is packed is the one of the next
    word. -/
theorem logLoad_edge (h : LogLoad g line s) {c : LogCores}
    (hres : s.resultFire c = true → c.logResData = g (word line s.packIdx)) (o : Option SlotBeat) (t : Bool) :
    (LogLoad g line (s.edge o t c) ∧
      (s.edge o t c).packIdx.toNat = s.packIdx.toNat + (s.resultFire c).toNat) ∨
    (LogOffer g line s.lineLast (s.edge o t c) ∧ s.issuing = false ∧
      s.packIdx.toNat + (s.resultFire c).toNat = 16) := by
  have hready := logLoad_tready h
  have hresp : (s.respValid && t) = false := by rw [h.respValid]; rfl
  obtain ⟨hstep, -⟩ := log_step (o := o) hready hresp c
  have hdata := log_data (o := o) hready hresp c
  have hpacked : Packed g line (s.packIdx.toNat + (s.resultFire c).toNat) (s.edge o t c).acc := by
    rw [hdata.acc]
    cases hfire : s.resultFire c with
    | false => exact h.packed
    | true =>
        rw [if_pos rfl, hres hfire]
        exact packed_word h.packed
  obtain ⟨-, hpack, -⟩ := filling_counts hstep.words (filling_owed h.words) owed_pos
  have hflush := log_flushed h.flushed o t c
  cases (log_fill hstep h.words h.awaiting h.respValid rfl t).1 with
  | fill hf ha hr hlast =>
      have hmore : (s.resultFire c && decide (s.packIdx = 15)) = false := by
        rw [← hr, hstep.respValid, h.respValid, Bool.or_false]
      rw [Nat.mod_eq_of_lt (packs_below hmore)] at hpack
      rw [← hpack] at hpacked
      exact Or.inl ⟨⟨hdata.line.trans h.held, hf, ha, hr, hflush, hpacked⟩, hpack⟩
  | answer hi ha hr hlast ho hp =>
      have hend : (s.resultFire c && decide (s.packIdx = 15)) = true := by
        rw [← hr, hstep.respValid, h.respValid, Bool.or_false]
      have hissued := (filling_ends hstep.words h.words issueFire_issuing owed_pos hend).1
      have hsum : s.packIdx.toNat + (s.resultFire c).toNat = 16 := by
        rw [Bool.and_eq_true, decide_eq_true_eq] at hend
        rw [hend.1, hend.2]
        rfl
      rw [hsum] at hpacked
      exact Or.inr ⟨⟨hi, ha, hr, hlast, ho, hp, hflush, packed_all hpacked⟩, hissued, hsum⟩

/-- A response that is not accepted stays. -/
theorem logOffer_edge (h : LogOffer g line last s) (o : Option SlotBeat) (c : LogCores) :
    LogOffer g line last (s.edge o false c) := by
  have hready := logOffer_tready h
  have hresp : (s.respValid && false) = false := Bool.and_false _
  obtain ⟨hstep, -⟩ := log_step (o := o) hready hresp c
  have hdata := log_data (o := o) hready hresp c
  cases (log_answer hstep h.issuing h.awaiting h.respValid h.respLast h.outstanding h.packIdx).1 with
  | fill _ _ hr =>
      have hvalid := hstep.respValid
      rw [hr, h.respValid, Bool.or_true] at hvalid
      cases hvalid
  | answer hi ha hr hl ho hp =>
      exact ⟨hi, ha, hr, hl, ho, hp, log_flushed h.flushed o false c,
        hdata.acc.trans (by rw [rests_unowed h.outstanding]; exact h.acc)⟩

/-- A line that is not the header of a request. -/
theorem log_take_data {b : SlotBeat} (h : (!s.frameActive && b.isHeader) = false) :
    s.take b = { s with
      respSession := if s.frameActive then s.respSession else b.session
      reqBytes := if s.frameActive then s.reqBytes else b.bytes
      sawHeader := if s.frameActive then s.sawHeader else b.isHeader
      frameActive := true
      line := b.payload
      lineLast := b.tlast
      issueIdx := 0
      issuing := true } := by
  unfold Log.take
  rw [h]
  cases s.frameActive <;> rfl

theorem log_take_header {b : SlotBeat} (hf : s.frameActive = false) (hb : b.isHeader = true) :
    s.take b = { s with
      respSession := b.session
      reqBytes := b.bytes
      sawHeader := true
      frameActive := !b.tlast } := by
  unfold Log.take
  rw [hf, hb]
  rfl

/-- A data line is taken: its words are about to be issued. -/
theorem logLoad_start (h : s.Rests) (hz : s.flushCnt = 0) {b : SlotBeat}
    (hb : (!s.frameActive && b.isHeader) = false) (c : LogCores) :
    LogLoad g b.payload (s.tick c (s.take b)) := by
  have hcount : (if s.flushCnt = 0 then 0 else s.flushCnt - 1) = 0 := if_pos hz
  rw [log_take_data hb]
  refine ⟨rfl, ?_, h.awaiting, h.respValid, hcount, ?_⟩
  · show s.outstanding.toNat + s.packIdx.toNat = 0
    rw [h.outstanding, h.packIdx]
    rfl
  · show Packed g b.payload s.packIdx.toNat s.acc
    rw [h.packIdx]
    exact packed_zero

end Line

/-! ## 2. A request -/

/-- The registers a request has set with its first line. -/
structure LogActive (r : StreamRequest) (s : Log) : Prop where
  frameActive : s.frameActive = true
  respSession : s.respSession = r.first.session
  reqBytes : s.reqBytes = r.first.bytes
  sawHeader : s.sawHeader = r.first.isHeader

/-- **Where the request `r` is** once `j` of its beats are taken: the words `w` are issued, `n` of them are
    packed, and `out` is sent. -/
inductive LogPos (g : BitVec 32 → BitVec 32) (r : StreamRequest) :
    List (BitVec 32) → Nat → Nat → Log → List SlotBeat → Prop where
  | between {w n j s out k} (h0 : 0 < j) (hj : j = r.headers + k) (hk : k < r.data.length)
      (ha : LogActive r s) (hq : s.Rests) (hz : s.flushCnt = 0) (hw : w = r.valuesTo k) (hn : n = 16 * k)
      (hout : out ++ r.left (mapWords g) k = r.reply (mapWords g)) : LogPos g r w n j s out
  | load {w n j s out k l} (hj : j = r.headers + k + 1) (hl : r.data[k]? = some l) (ha : LogActive r s)
      (hload : LogLoad g l.payload s) (hlast : s.lineLast = decide (k + 1 = r.data.length))
      (hw : w = r.valuesTo k ++ (values l.payload).take (issuedWords s.issuing s.issueIdx))
      (hn : n = 16 * k + s.packIdx.toNat)
      (hout : out ++ r.left (mapWords g) k = r.reply (mapWords g)) : LogPos g r w n j s out
  | offer {w n j s out k l} (hj : j = r.headers + k + 1) (hl : r.data[k]? = some l) (ha : LogActive r s)
      (hoffer : LogOffer g l.payload (decide (k + 1 = r.data.length)) s) (hw : w = r.valuesTo (k + 1))
      (hn : n = 16 * (k + 1)) (hout : out ++ r.left (mapWords g) k = r.reply (mapWords g)) :
      LogPos g r w n j s out

/-- **The request is answered**: all its words were issued and packed. -/
structure LogDone (g : BitVec 32 → BitVec 32) (r : StreamRequest) (w : List (BitVec 32)) (n j : Nat) (s : Log)
    (out : List SlotBeat) : Prop where
  idle : s.Idle
  flushed : s.flushCnt = 0
  beats : j = r.lines.length
  issued : w = r.allValues
  packed : n = w.length
  out : out = r.reply (mapWords g)

/-- Where an edge takes a request. -/
def LogNext (g : BitVec 32 → BitVec 32) (r : StreamRequest) (w : List (BitVec 32)) (n j : Nat) (s : Log)
    (out : List SlotBeat) : Prop :=
  LogPos g r w n j s out ∨ LogDone g r w n j s out

section Request

variable {g : BitVec 32 → BitVec 32} {r : StreamRequest} {w : List (BitVec 32)} {n j k : Nat} {s : Log}
  {out : List SlotBeat}

/-- The words in flight are the results that are owed. -/
theorem logPos_owed (h : LogPos g r w n j s out) : n + s.outstanding.toNat = w.length ∧ s.outstanding.toNat ≤ 16 := by
  cases h with
  | between _ _ hk _ hq _ hw hn =>
      rw [hw, hn, StreamRequest.valuesTo_length (Nat.le_of_lt hk), hq.outstanding]
      exact ⟨rfl, Nat.zero_le _⟩
  | load _ hl _ hload _ hw hn =>
      have hlt := (List.getElem?_eq_some_iff.mp hl).1
      have hle := issuedWords_le s.issuing s.issueIdx
      have hfill : s.outstanding.toNat + s.packIdx.toNat = issuedWords s.issuing s.issueIdx := hload.words
      rw [hw, hn, List.length_append, StreamRequest.valuesTo_length (Nat.le_of_lt hlt), List.length_take,
        values_length, Nat.min_eq_left hle]
      omega
  | offer _ hl _ hoffer hw hn =>
      have hlt := (List.getElem?_eq_some_iff.mp hl).1
      rw [hw, hn, StreamRequest.valuesTo_length hlt, hoffer.outstanding]
      exact ⟨rfl, Nat.zero_le _⟩

theorem logPos_flushed (h : LogPos g r w n j s out) : s.flushCnt = 0 := by
  cases h with
  | between _ _ _ _ _ hz => exact hz
  | load _ _ _ hload => exact hload.flushed
  | offer _ _ _ hoffer => exact hoffer.flushed

/-- Once all beats are taken, no other one is until the request is answered. -/
theorem logPos_full (h : LogPos g r w n j s out) (hj : r.lines.length ≤ j) : s.tready = false := by
  have hlen : r.lines.length = r.headers + r.data.length := StreamRequest.lines_length
  cases h with
  | between _ hj' hk => omega
  | load _ _ _ hload => exact logLoad_tready hload
  | offer _ _ _ hoffer => exact logOffer_tready hoffer

/-- The words issued are the first ones of the request, and what is sent begins the response. -/
theorem logPos_words (h : LogPos g r w n j s out) : w <+: r.allValues := by
  cases h with
  | between _ _ hk _ _ _ hw =>
      have hline := StreamRequest.valuesTo_prefix (List.getElem?_eq_getElem hk) 0
      rw [List.take_zero, List.append_nil] at hline
      exact hw ▸ hline
  | load _ hl _ _ _ hw => exact hw ▸ StreamRequest.valuesTo_prefix hl _
  | offer _ hl _ _ hw => exact hw ▸ StreamRequest.valuesTo_line hl

theorem logPos_sent (h : LogPos g r w n j s out) : out <+: r.reply (mapWords g) := by
  cases h with
  | between _ _ _ _ _ _ _ _ hout => exact ⟨_, hout⟩
  | load _ _ _ _ _ _ _ hout => exact ⟨_, hout⟩
  | offer _ _ _ _ _ _ hout => exact ⟨_, hout⟩

/-- A data line of the request is taken. -/
theorem logPos_data {l : SlotLine} (hj : j = r.headers + k) (hl : r.data[k]? = some l) (hq : s.Rests)
    (hz : s.flushCnt = 0) (hneg : (!s.frameActive && l.isHeader) = false)
    (hsession : (if s.frameActive then s.respSession else l.session) = r.first.session)
    (hbytes : (if s.frameActive then s.reqBytes else l.bytes) = r.first.bytes)
    (hheader : (if s.frameActive then s.sawHeader else l.isHeader) = r.first.isHeader)
    (hout : out ++ r.left (mapWords g) k = r.reply (mapWords g)) (c : LogCores) :
    LogPos g r (r.valuesTo k) (16 * k) (j + 1)
      (s.tick c (s.take (l.beat (decide (k + 1 = r.data.length))))) out := by
  have hload := logLoad_start (g := g) hq hz (b := l.beat (decide (k + 1 = r.data.length))) hneg c
  have htake := log_take_data (s := s) (b := l.beat (decide (k + 1 = r.data.length))) hneg
  rw [htake] at hload ⊢
  refine .load (by omega) hl ⟨rfl, hsession, hbytes, hheader⟩ hload rfl ?_ ?_ hout
  · exact (List.append_nil _).symm
  · show 16 * k = 16 * k + s.packIdx.toNat
    rw [hq.packIdx]
    rfl

/-- **The first beat of a request is taken.** -/
theorem logPos_first (h : s.Idle) (hz : s.flushCnt = 0) (c : LogCores) :
    LogNext g r [] 0 1 (s.tick c (s.take (r.first.beat r.more.isEmpty))) [] := by
  have hcount : (if s.flushCnt = 0 then 0 else s.flushCnt - 1) = 0 := if_pos hz
  cases hh : r.first.isHeader with
  | true =>
      have hdata : r.data = r.more := if_pos hh
      have hhead : r.headers = 1 := if_pos hh
      have htake : s.take (r.first.beat r.more.isEmpty) = _ := log_take_header h.frameActive hh
      rw [htake]
      cases hmore : r.more with
      | nil =>
          refine Or.inr ⟨⟨h.issuing, h.awaiting, h.respValid, rfl, h.outstanding, h.packIdx⟩, hcount, ?_, ?_, rfl, ?_⟩
          · rw [StreamRequest.lines_length, hdata, hmore, hhead]
            rfl
          · rw [StreamRequest.allValues, hdata, hmore]
            rfl
          · rw [StreamRequest.reply, hdata, hmore]
            rfl
      | cons l post =>
          refine Or.inl (.between (k := 0) Nat.one_pos hhead.symm ?_ ⟨rfl, rfl, rfl, hh.symm⟩
            ⟨h.issuing, h.awaiting, h.respValid, h.outstanding, h.packIdx⟩ hcount rfl rfl rfl)
          rw [hdata, hmore]
          exact Nat.succ_pos _
  | false =>
      have hdata : r.data = r.lines := if_neg (by rw [hh]; exact Bool.false_ne_true)
      have hhead : r.headers = 0 := if_neg (by rw [hh]; exact Bool.false_ne_true)
      have hlast : r.more.isEmpty = decide (0 + 1 = r.data.length) := by
        rw [hdata, Bool.eq_iff_iff, decide_eq_true_eq, List.isEmpty_iff, ← List.length_eq_zero_iff]
        show _ ↔ 0 + 1 = r.more.length + 1
        omega
      rw [hlast]
      refine Or.inl (logPos_data (k := 0) (j := 0) hhead.symm (by rw [hdata]; rfl) h.rests hz ?_ ?_ ?_ ?_ rfl c)
      · rw [hh, Bool.and_false]
      · rw [h.frameActive]; rfl
      · rw [h.frameActive]; rfl
      · rw [h.frameActive]; rfl

/-- A later line is taken. -/
theorem logPos_later {l : SlotLine} (hj : j = r.headers + k) (hl : r.data[k]? = some l) (ha : LogActive r s)
    (hq : s.Rests) (hz : s.flushCnt = 0) (hout : out ++ r.left (mapWords g) k = r.reply (mapWords g)) (c : LogCores) :
    LogPos g r (r.valuesTo k) (16 * k) (j + 1)
      (s.tick c (s.take (l.beat (decide (k + 1 = r.data.length))))) out := by
  refine logPos_data hj hl hq hz ?_ ?_ ?_ ?_ hout c
  · rw [ha.frameActive]; rfl
  · rw [ha.frameActive]; exact ha.respSession
  · rw [ha.frameActive]; exact ha.reqBytes
  · rw [ha.frameActive]; exact ha.sawHeader

/-- The response to a line is accepted. -/
theorem logPos_accept {l : SlotLine} (hj : j = r.headers + k + 1) (hl : r.data[k]? = some l) (ha : LogActive r s)
    (hoffer : LogOffer g l.payload (decide (k + 1 = r.data.length)) s)
    (hout : out ++ r.left (mapWords g) k = r.reply (mapWords g)) (o : Option SlotBeat) (c : LogCores) :
    LogNext g r (r.valuesTo (k + 1)) (16 * (k + 1)) j (s.edge o true c) (out ++ [s.response]) := by
  have hlt := (List.getElem?_eq_some_iff.mp hl).1
  have hcount : (if s.flushCnt = 0 then 0 else s.flushCnt - 1) = 0 := if_pos hoffer.flushed
  have hresp : s.response =
      ⟨r.respBytes, r.first.session, decide (k + 1 = r.data.length), mapWords g l.payload⟩ := by
    rw [Log.response, ha.reqBytes, ha.sawHeader, ha.respSession, hoffer.respLast, hoffer.acc]
    rfl
  rw [r.left_cons _ hl, ← hresp, List.append_cons] at hout
  rw [log_accept hoffer.issuing hoffer.respValid hoffer.outstanding o c, hoffer.respLast]
  by_cases hlast : k + 1 = r.data.length
  · rw [decide_eq_true hlast, if_pos rfl]
    rw [r.left_nil _ (Nat.le_of_eq hlast.symm), List.append_nil] at hout
    refine Or.inr ⟨⟨hoffer.issuing, hoffer.awaiting, rfl, rfl, hoffer.outstanding, hoffer.packIdx⟩, hcount, ?_, ?_,
      ?_, hout⟩
    · rw [StreamRequest.lines_length]
      omega
    · rw [hlast, StreamRequest.valuesTo_all]
    · rw [StreamRequest.valuesTo_length hlt]
  · rw [decide_eq_false hlast, if_neg Bool.false_ne_true]
    exact Or.inl (.between (k := k + 1) (by omega) (by omega) (by omega)
      ⟨ha.frameActive, ha.respSession, ha.reqBytes, ha.sawHeader⟩
      ⟨hoffer.issuing, hoffer.awaiting, rfl, hoffer.outstanding, hoffer.packIdx⟩ hcount rfl rfl hout)

/-- The words of a line move on, a result that is packed being the one of the next word. -/
theorem logPos_load {l : SlotLine} (hj : j = r.headers + k + 1) (hl : r.data[k]? = some l) (ha : LogActive r s)
    (hload : LogLoad g l.payload s) (hlast : s.lineLast = decide (k + 1 = r.data.length))
    (hw : w = r.valuesTo k ++ (values l.payload).take (issuedWords s.issuing s.issueIdx))
    (hn : n = 16 * k + s.packIdx.toNat) (hout : out ++ r.left (mapWords g) k = r.reply (mapWords g)) {c : LogCores}
    (hres : s.resultFire c = true → ∀ x, w[n]? = some x → c.logResData = g x) (o : Option SlotBeat) (t : Bool) :
    LogPos g r (w ++ (s.issued c).toList) (n + (s.resultFire c).toNat) j (s.edge o t c) out := by
  have hlt := (List.getElem?_eq_some_iff.mp hl).1
  have hready := logLoad_tready hload
  have hresp : (s.respValid && t) = false := by rw [hload.respValid]; rfl
  obtain ⟨hstep, -⟩ := log_step (o := o) hready hresp c
  have hdata := log_data (o := o) hready hresp c
  have ha' : LogActive r (s.edge o t c) := ⟨hdata.frameActive.trans ha.frameActive,
    hdata.respSession.trans ha.respSession, hdata.reqBytes.trans ha.reqBytes, hdata.sawHeader.trans ha.sawHeader⟩
  have hword : s.resultFire c = true → c.logResData = g (word l.payload s.packIdx) := by
    intro hfire
    have howed := owed_pos hfire
    have hfill : s.outstanding.toNat + s.packIdx.toNat = issuedWords s.issuing s.issueIdx := hload.words
    refine hres hfire _ ?_
    rw [hw, hn, List.getElem?_append_right (by rw [StreamRequest.valuesTo_length (Nat.le_of_lt hlt)]; omega),
      StreamRequest.valuesTo_length (Nat.le_of_lt hlt), Nat.add_sub_cancel_left,
      List.getElem?_take_of_lt (by omega), values_getElem?]
  have hissued : w ++ (s.issued c).toList = r.valuesTo k ++
      (values l.payload).take (issuedWords s.issuing s.issueIdx + (s.issueFire c).toNat) := by
    rw [hw, List.append_assoc, ← values_issue issueFire_issuing, Log.issued, hload.held]
  rcases logLoad_edge hload hword o t with ⟨hload', hpack⟩ | ⟨hoffer, hi, hsum⟩
  · refine .load hj hl ha' hload' (hstep.lineLast.trans hlast) ?_ (by omega) hout
    rw [hissued, issuedWords_step hstep.words issueFire_issuing]
  · rw [hlast] at hoffer
    refine .offer hj hl ha' hoffer ?_ (by omega) hout
    rw [hissued, StreamRequest.valuesTo_succ hl, hi]
    refine congrArg _ (List.take_of_length_le ?_)
    rw [values_length]
    exact Nat.le_add_right 16 _

/-- **One edge of a request.** -/
theorem logPos_edge (h : LogPos g r w n j s out) {c : LogCores}
    (hres : s.resultFire c = true → ∀ x, w[n]? = some x → c.logResData = g x) (o : Option SlotBeat) (t : Bool)
    (hoff : o = none ∨ o = r.beats[j]?) :
    LogNext g r (w ++ (s.issued c).toList) (n + (s.resultFire c).toNat)
      (j + (if s.tready then o else none).toList.length) (s.edge o t c)
      (out ++ (if s.respValid && t then some s.response else none).toList) := by
  cases h with
  | @between k h0 hj hk ha hq hz hw hn hout =>
      have hcount : (if s.flushCnt = 0 then 0 else s.flushCnt - 1) = 0 := if_pos hz
      rw [rests_issued hq.issuing, rests_unowed hq.outstanding, hq.respValid, hw, hn,
        log_quiet hq.issuing hq.outstanding hq.respValid o t c]
      simp only [Option.toList_none, List.append_nil, Bool.toNat_false, Nat.add_zero, Bool.false_and,
        Bool.false_eq_true, if_false]
      cases htaken : (if s.tready then o else none) with
      | none =>
          exact Or.inl (.between h0 hj hk ⟨ha.frameActive, ha.respSession, ha.reqBytes, ha.sawHeader⟩
            ⟨hq.issuing, hq.awaiting, hq.respValid, hq.outstanding, hq.packIdx⟩ hcount rfl rfl hout)
      | some b =>
          have hb : r.beats[r.headers + k]? = some b := by
            rw [← hj]
            cases hready : s.tready with
            | false => rw [hready] at htaken; cases htaken
            | true =>
                rw [hready, if_pos rfl] at htaken
                rw [htaken] at hoff
                exact (hoff.resolve_left (Option.some_ne_none b)).symm
          obtain ⟨l, hl, rfl⟩ := StreamRequest.beats_data hb
          exact Or.inl (logPos_later hj hl ha hq hz hout c)
  | load hj hl ha hload hlast hw hn hout =>
      rw [logLoad_tready hload, hload.respValid]
      have hnext := logPos_load hj hl ha hload hlast hw hn hout hres o t
      rw [← List.append_nil out] at hnext
      exact Or.inl hnext
  | @offer k l hj hl ha hoffer hw hn hout =>
      rw [logOffer_tready hoffer, hoffer.respValid, rests_issued hoffer.issuing, rests_unowed hoffer.outstanding, hw, hn]
      simp only [Option.toList_none, List.append_nil, Bool.toNat_false, Nat.add_zero, Bool.false_eq_true, if_false,
        Bool.true_and, List.length_nil]
      cases t with
      | false =>
          have hdata := log_data (o := o) (logOffer_tready hoffer) (Bool.and_false s.respValid) c
          rw [if_neg Bool.false_ne_true, Option.toList_none, List.append_nil]
          exact Or.inl (.offer hj hl ⟨hdata.frameActive.trans ha.frameActive,
            hdata.respSession.trans ha.respSession, hdata.reqBytes.trans ha.reqBytes,
            hdata.sawHeader.trans ha.sawHeader⟩ (logOffer_edge hoffer o c) rfl rfl hout)
      | true =>
          rw [if_pos rfl]
          exact logPos_accept hj hl ha hoffer hout o c

end Request

end Frac.Slots
