/-
  File:      Frac/Slots/TopKStream.lean
  Subject:   What `top_k.v` is for, and that it does it on every stream of requests.

  * `StreamRequest.topWord`, `StreamRequest.topAnswer` -- the specification: the words of a response
    are the largest words of the request, in order, under the mask of its header;
  * `TopK.Holds` -- **where a request is**: the array ranks the words that were unpacked so far;
  * `topK_stream` -- **one response for each request, in order**, whatever the gaps and stalls.
-/
import Frac.Lib.Largest
import Frac.Slots.Stream
import Frac.Slots.TopK

namespace Frac.Slots

open Bits Clocked

/-! ## 1. What is asked for -/

/-- The words of a line, as numbers. -/
def lineWords (l : SlotLine) : List Nat :=
  (List.range 16).map fun i => (l.payload.extractLsb' (32 * i) 32).toNat

/-- Words with sixteen zeros. -/
def padded (ws : List Nat) : Multiset Nat := (ws : Multiset Nat) + Multiset.replicate 16 0

namespace StreamRequest

/-- The mask of the result words: of the header, if there is one. -/
def kmask (r : StreamRequest) : BitVec 16 :=
  if r.first.isHeader then r.first.payload.extractLsb' 480 16 else BitVec.allOnes 16

/-- The words of the data lines. -/
def words (r : StreamRequest) : List Nat := r.data.flatMap lineWords

/-- Word `j` of the response: the `j`-th largest of the request. -/
def topWord (r : StreamRequest) (j : Nat) : Nat :=
  if r.kmask.getLsbD j then ((padded r.words).largest j).getD 0 else 0

/-- **The response.** -/
def topAnswer (r : StreamRequest) : SlotBeat where
  bytes := 64
  session := r.first.session
  tlast := true
  payload := ofBits 512 fun t => (r.topWord (t / 32)).testBit (t % 32)

end StreamRequest

/-! ## 2. The array -/

/-- The array as numbers. -/
def TopK.values (s : TopK) (i : Fin 16) : Nat := (s.topk i).toNat

/-- What a cell holds after an insertion into a descending array. -/
theorem le_insert_iff {v : BitVec 32} {t : Fin 16 → BitVec 32}
    (h : ∀ i j : Fin 16, i ≤ j → (t j).toNat ≤ (t i).toNat) (j : Fin 16) (x : Nat) :
    x ≤ (TopK.insert v t j).toNat ↔
      x ≤ (t j).toNat ∨ x ≤ v.toNat ∧ ∀ i : Fin 16, i.val + 1 = j.val → x ≤ (t i).toNat := by
  have hgt : ∀ i, v > t i ↔ (t i).toNat < v.toNat := fun i => BitVec.lt_def
  unfold TopK.insert
  by_cases hv : v > t j
  · rw [if_pos hv]
    rw [hgt] at hv
    by_cases h0 : j = 0
    · rw [if_pos (Or.inl h0)]
      subst h0
      refine ⟨fun hx => Or.inr ⟨hx, fun i hi => absurd hi (Nat.succ_ne_zero _)⟩, fun hx => ?_⟩
      rcases hx with hx | hx
      · omega
      · exact hx.1
    · have hpos : 0 < j.val := Nat.pos_of_ne_zero fun e => h0 (Fin.ext e)
      have hpred : (j - 1).val + 1 = j.val := by
        rw [Fin.sub_def]
        simp only [Fin.val_one]
        omega
      have honly : (∀ i : Fin 16, i.val + 1 = j.val → x ≤ (t i).toNat) ↔ x ≤ (t (j - 1)).toNat := by
        refine ⟨fun hi => hi _ hpred, fun hx i hi => ?_⟩
        obtain rfl : i = j - 1 := Fin.ext (by omega)
        exact hx
      have hdesc := h (j - 1) j (Fin.le_def.mpr (by omega))
      rw [honly]
      by_cases hprev : v > t (j - 1)
      · rw [if_neg (by simp [h0, hprev])]
        rw [hgt] at hprev
        omega
      · rw [if_pos (Or.inr hprev)]
        rw [hgt] at hprev
        omega
  · rw [if_neg hv]
    rw [hgt] at hv
    refine ⟨Or.inl, fun hx => ?_⟩
    rcases hx with hx | hx
    · exact hx
    · omega

/-- **An insertion ranks one word more.** -/
theorem ranks_insert {s : TopK} {m : Multiset Nat} (h : Multiset.Ranks s.values m) (v : BitVec 32) :
    Multiset.Ranks (fun i => (TopK.insert v s.topk i).toNat) (v.toNat ::ₘ m) :=
  h.cons (le_insert_iff fun _ _ => h.antitone)

theorem padded_concat (ws : List Nat) (w : Nat) : padded (ws ++ [w]) = w ::ₘ padded ws := by
  have hws : (ws ++ [w] : List Nat) = w ::ₘ (ws : Multiset Nat) :=
    Multiset.coe_eq_coe.mpr (List.perm_append_singleton w ws)
  rw [padded, hws, Multiset.cons_add]
  rfl

/-- Word by word through a line. -/
theorem lineWords_take (l : SlotLine) {w : Nat} (hw : w < 16) :
    (lineWords l).take (w + 1) =
      (lineWords l).take w ++ [(l.payload.extractLsb' (32 * w) 32).toNat] := by
  have hlen : w < (lineWords l).length := by simpa [lineWords] using hw
  rw [List.take_succ_eq_append_getElem hlen]
  simp [lineWords]

/-! ## 3. A request -/

/-- No request is under way, and nothing of the last one is left. -/
structure TopK.Clean (s : TopK) : Prop where
  idle : s.Idle
  kmask : s.kmask = BitVec.allOnes 16
  topk : ∀ i, s.topk i = 0

/-- **Where the request `r` is**, with the lines `post` still to be taken: a line is being unpacked,
    the next one is waited for, or the response is shown. -/
inductive TopK.Holds (r : StreamRequest) (s : TopK) : List SlotLine → Prop where
  | line {ls l post} (hdata : r.data = ls ++ l :: post) (hu : s.unpacking = true)
      (hr : s.respValid = false) (hline : s.line = l.payload) (hlast : s.lineLast = post.isEmpty)
      (hranks : Multiset.Ranks s.values
        (padded (ls.flatMap lineWords ++ (lineWords l).take s.widx.toNat))) : Holds r s post
  | between {ls post} (hdata : r.data = ls ++ post) (hpost : post ≠ []) (hu : s.unpacking = false)
      (hr : s.respValid = false) (hranks : Multiset.Ranks s.values (padded (ls.flatMap lineWords))) :
      Holds r s post
  | answer (hu : s.unpacking = false) (hr : s.respValid = true)
      (hranks : Multiset.Ranks s.values (padded r.words)) : Holds r s []

/-- What the request has left in the other registers. -/
structure TopK.Active (r : StreamRequest) (s : TopK) : Prop where
  frameActive : s.frameActive = true
  session : s.respSession = r.first.session
  kmask : s.kmask = r.kmask

/-- A beat that is not a header goes into the line. -/
theorem take_data {s : TopK} {b : SlotBeat} (hb : (!s.frameActive && b.isHeader) = false) :
    s.take b s = { s with
      respSession := if s.frameActive then s.respSession else b.session
      frameActive := true
      line := b.payload
      lineLast := b.tlast
      widx := 0
      unpacking := true } := by
  unfold TopK.take
  simp only [hb, Bool.false_eq_true, if_false]

theorem take_header {s : TopK} {l : SlotLine} (hf : s.frameActive = false) (hl : l.isHeader = true)
    (tlast : Bool) :
    s.take (l.beat tlast) s = { s with
      respSession := l.session
      frameActive := true
      kmask := l.payload.extractLsb' 480 16
      respValid := tlast } := by
  unfold TopK.take
  simp only [hf, SlotLine.isHeader_beat, hl, Bool.not_false, Bool.true_and, if_true,
    Bool.false_eq_true, if_false]
  rfl

/-- The array of a clean module. -/
theorem clean_ranks {s : TopK} (h : s.Clean) : Multiset.Ranks s.values (padded []) := by
  have hzero : s.values = fun _ => ⊥ := funext fun i => by
    rw [TopK.values, h.topk]
    rfl
  have hnil : padded [] = Multiset.replicate 16 ⊥ := Multiset.zero_add _
  rw [hzero, hnil]
  exact Multiset.Ranks.bot 16

/-- A data line. -/
theorem holds_data {s : TopK} {r : StreamRequest} {ls post : List SlotLine} {l : SlotLine}
    (hhead : (!s.frameActive && l.isHeader) = false)
    (hsession : (if s.frameActive then s.respSession else l.session) = r.first.session)
    (hmask : s.kmask = r.kmask) (hdata : r.data = ls ++ l :: post) (hr : s.respValid = false)
    (hranks : Multiset.Ranks s.values (padded (ls.flatMap lineWords))) :
    (s.take (l.beat post.isEmpty) s).Active r ∧ (s.take (l.beat post.isEmpty) s).Holds r post := by
  rw [take_data hhead]
  rw [← List.append_nil (ls.flatMap lineWords)] at hranks
  exact ⟨⟨rfl, hsession, hmask⟩, .line hdata rfl hr rfl rfl hranks⟩

/-- The header line. -/
theorem holds_header {s : TopK} (h : s.Clean) {r : StreamRequest} (hh : r.first.isHeader = true) :
    (s.take (r.first.beat r.more.isEmpty) s).Active r ∧
      (s.take (r.first.beat r.more.isEmpty) s).Holds r r.more := by
  have hranks := clean_ranks h
  have hdata : r.data = r.more := if_pos hh
  rw [take_header h.idle.frameActive hh _]
  refine ⟨⟨rfl, rfl, (if_pos hh).symm⟩, ?_⟩
  cases hmore : r.more with
  | nil =>
      refine .answer h.idle.unpacking rfl ?_
      rw [StreamRequest.words, hdata, hmore]
      exact hranks
  | cons l post =>
      have hnone : r.data = [] ++ l :: post := hdata.trans hmore
      exact .between hnone (List.cons_ne_nil _ _) h.idle.unpacking rfl hranks

/-- The first line. -/
theorem holds_first {s : TopK} (h : s.Clean) (r : StreamRequest) :
    (s.take (r.first.beat r.more.isEmpty) s).Active r ∧
      (s.take (r.first.beat r.more.isEmpty) s).Holds r r.more := by
  cases hh : r.first.isHeader with
  | true => exact holds_header h hh
  | false =>
      have hneg : ¬ r.first.isHeader = true := by rw [hh]; exact Bool.false_ne_true
      have hnone : r.data = [] ++ r.first :: r.more := if_neg hneg
      refine holds_data ?_ ?_ ?_ hnone h.idle.respValid (clean_ranks h)
      · rw [hh, Bool.and_false]
      · rw [h.idle.frameActive]
        rfl
      · rw [h.kmask, StreamRequest.kmask, if_neg hneg]

/-- A later line. -/
theorem holds_later {s : TopK} {r : StreamRequest} {ls post : List SlotLine} {l : SlotLine}
    (ha : s.Active r) (hdata : r.data = ls ++ l :: post) (hr : s.respValid = false)
    (hranks : Multiset.Ranks s.values (padded (ls.flatMap lineWords))) :
    (s.take (l.beat post.isEmpty) s).Active r ∧ (s.take (l.beat post.isEmpty) s).Holds r post := by
  refine holds_data ?_ ?_ ha.kmask hdata hr hranks
  · rw [ha.frameActive]
    rfl
  · rw [ha.frameActive]
    exact ha.session

/-- A word of a line. -/
theorem holds_unpack {s : TopK} {r : StreamRequest} {ls post : List SlotLine} {l : SlotLine}
    (hdata : r.data = ls ++ l :: post) (hu : s.unpacking = true) (hr : s.respValid = false)
    (hline : s.line = l.payload) (hlast : s.lineLast = post.isEmpty)
    (hranks : Multiset.Ranks s.values
      (padded (ls.flatMap lineWords ++ (lineWords l).take s.widx.toNat))) :
    (s.unpack s).Holds r post := by
  have hword : s.insVal.toNat = (l.payload.extractLsb' (32 * s.widx.toNat) 32).toNat := by
    rw [TopK.insVal, hline]
  have hmore : Multiset.Ranks (s.unpack s).values
      (padded (ls.flatMap lineWords ++ (lineWords l).take (s.widx.toNat + 1))) := by
    rw [lineWords_take l s.widx.isLt, ← List.append_assoc, padded_concat, ← hword]
    exact ranks_insert hranks s.insVal
  by_cases h15 : s.widx = 15
  · have h1 : (s.unpack s).unpacking = false := if_pos h15
    have h2 : (s.unpack s).respValid = post.isEmpty := (if_pos h15).trans hlast
    have hall : (lineWords l).take (s.widx.toNat + 1) = lineWords l := by
      rw [h15]
      exact List.take_of_length_le (by simp [lineWords])
    rw [hall] at hmore
    cases post with
    | nil =>
        refine .answer h1 h2 ?_
        rw [StreamRequest.words, hdata, List.flatMap_append, List.flatMap_singleton]
        exact hmore
    | cons l' post =>
        have hnext : r.data = (ls ++ [l]) ++ l' :: post := by rw [hdata, List.append_assoc]; rfl
        refine .between hnext (List.cons_ne_nil _ _) h1 h2 ?_
        rw [List.flatMap_append, List.flatMap_singleton]
        exact hmore
  · have h1 : (s.unpack s).unpacking = true := (if_neg h15).trans hu
    have h2 : (s.unpack s).respValid = false := (if_neg h15).trans hr
    refine .line hdata h1 h2 hline hlast ?_
    rw [topK_widx h15]
    exact hmore

/-- **The response is the one that is asked for.** -/
theorem response_answer {s : TopK} {r : StreamRequest} (ha : s.Active r)
    (hranks : Multiset.Ranks s.values (padded r.words)) : s.response = r.topAnswer := by
  have hword : ∀ j (hj : j < 16), r.topWord j =
      if s.kmask.getLsbD j then (s.topk (Fin.ofNat 16 j)).toNat else 0 := by
    intro j hj
    have hfin : Fin.ofNat 16 j = ⟨j, hj⟩ := Fin.ext (Nat.mod_eq_of_lt hj)
    rw [StreamRequest.topWord, ha.kmask, hranks.largest ⟨j, hj⟩, hfin]
    rfl
  have hdata : s.respData = r.topAnswer.payload := by
    apply BitVec.eq_of_getLsbD_eq
    intro t ht
    rw [TopK.respData, StreamRequest.topAnswer, getLsbD_ofBits, getLsbD_ofBits, decide_eq_true ht,
      Bool.true_and, Bool.true_and, hword _ (by omega)]
    cases s.kmask.getLsbD (t / 32) with
    | false => exact (Nat.zero_testBit _).symm
    | true => exact BitVec.testBit_toNat ..
  rw [TopK.response, hdata, ha.session]
  rfl

/-! ## 4. The stream -/

section Stream

variable {y : Stream topK} {i : StreamIn topK}

/-- A line is being unpacked. -/
theorem stream_unpack (hu : y.slot.unpacking = true) (hr : y.slot.respValid = false) (i : StreamIn topK) :
    y.edge i = ⟨y.slot.unpack y.slot, y.todo, y.sent⟩ := by
  rw [Stream.edge_eq (topK_unpacking hu hr ..) (topK_busy (by rw [hu, Bool.true_or]) ..)
    (topK_quiet (by rw [hr, Bool.false_and]) _)]
  exact congrArg (Stream.mk _ _) (List.append_nil _)

/-- The response is accepted. -/
theorem stream_accept (hu : y.slot.unpacking = false) (hr : y.slot.respValid = true)
    {i : StreamIn topK} (ht : i.mTready = true) :
    y.edge i = ⟨y.slot.clear, y.todo, y.sent ++ [y.slot.response]⟩ := by
  have hedge : topK.edge y.slot (y.offered i) i.mTready i.cores = TopK.clear y.slot := by
    rw [ht]
    exact topK_accepted hu hr _
  have hsent : topK.sent y.slot (y.offered i) i.mTready = some (TopK.response y.slot) := by
    rw [ht]
    exact topK_sends hr _
  rw [Stream.edge_eq hedge (topK_busy (by rw [hr, Bool.or_true]) ..) hsent]
  rfl

/-- The response is held. -/
theorem stream_hold (hu : y.slot.unpacking = false) (hr : y.slot.respValid = true)
    {i : StreamIn topK} (ht : i.mTready = false) : y.edge i = y := by
  have hedge : topK.edge y.slot (y.offered i) i.mTready i.cores = y.slot := by
    rw [ht]
    exact topK_stalled hu hr _
  rw [Stream.edge_eq hedge (topK_busy (by rw [hr, Bool.or_true]) ..)
    (topK_quiet (by rw [ht, Bool.and_false]) _)]
  exact congrArg (Stream.mk _ _) (List.append_nil _)

/-- Nothing is offered. -/
theorem stream_gap (hu : y.slot.unpacking = false) (hr : y.slot.respValid = false)
    {i : StreamIn topK} (ho : y.offered i = none) : y.edge i = y := by
  have hedge : topK.edge y.slot (y.offered i) i.mTready i.cores = y.slot := by
    rw [ho]
    exact topK_wait hu hr _
  rw [Stream.edge_eq hedge ((topK_taken hu hr ..).trans ho) (topK_quiet (by rw [hr, Bool.false_and]) _)]
  exact congrArg (Stream.mk _ _) (List.append_nil _)

/-- A beat is taken. -/
theorem stream_take (hu : y.slot.unpacking = false) (hr : y.slot.respValid = false)
    {i : StreamIn topK} {b : SlotBeat} (ho : y.offered i = some b) :
    y.edge i = ⟨y.slot.take b y.slot, y.todo.drop 1, y.sent⟩ := by
  have hedge : topK.edge y.slot (y.offered i) i.mTready i.cores = TopK.take y.slot b y.slot := by
    rw [ho]
    exact topK_taking hu hr ..
  rw [Stream.edge_eq hedge ((topK_taken hu hr ..).trans ho) (topK_quiet (by rw [hr, Bool.false_and]) _)]
  exact congrArg (Stream.mk _ _) (List.append_nil _)

/-- **Where the stream is** with the requests `rest` still to be answered: the next one is not begun,
    or the module holds it. -/
inductive TopKAt (rest : List StreamRequest) (y : Stream topK) : Prop where
  | idle (hs : TopK.Clean y.slot) (htodo : y.todo = rest.flatMap StreamRequest.beats) : TopKAt rest y
  | busy {r later post} (hrest : rest = r :: later) (ha : TopK.Active r y.slot)
      (hh : TopK.Holds r y.slot post)
      (htodo : y.todo = lineBeats post ++ later.flatMap StreamRequest.beats) : TopKAt rest y

/-- **The invariant of a stream**: what was sent answers the requests up to where it is. -/
def TopKStreams (requests : List StreamRequest) (y : Stream topK) : Prop :=
  ∃ done rest, requests = done ++ rest ∧ y.sent = done.map StreamRequest.topAnswer ∧ TopKAt rest y

/-- The edges a stream still needs. -/
def topKLeft (y : Stream topK) : Nat := 18 * y.todo.length + TopK.load y.slot

/-- **One edge**: the invariant stays, what is left does not grow, and shrinks if the edge holds
    nothing back. -/
def TopKStep (requests : List StreamRequest) (y : Stream topK) (i : StreamIn topK) : Prop :=
  TopKStreams requests (y.edge i) ∧ topKLeft (y.edge i) ≤ topKLeft y ∧
    (y.willing i = true → topKLeft y ≠ 0 → topKLeft (y.edge i) < topKLeft y)

variable {requests : List StreamRequest}

/-- An edge that gets on. -/
theorem TopKStep.of_lt (h : TopKStreams requests (y.edge i)) (hlt : topKLeft (y.edge i) < topKLeft y) :
    TopKStep requests y i :=
  ⟨h, hlt.le, fun _ _ => hlt⟩

/-- An edge that waits. -/
theorem TopKStep.of_eq (h : TopKStreams requests y) (he : y.edge i = y)
    (hw : y.willing i = true → topKLeft y = 0) : TopKStep requests y i := by
  refine ⟨he.symm ▸ h, le_of_eq (by rw [he]), fun hwill h0 => absurd (hw hwill) h0⟩

/-- A module that is ready and is offered nothing. -/
theorem step_gap (h : TopKStreams requests y) (hu : y.slot.unpacking = false)
    (hr : y.slot.respValid = false) (ho : y.offered i = none) : TopKStep requests y i := by
  refine .of_eq h (stream_gap hu hr ho) fun hw => ?_
  rw [Stream.willing, Bool.and_eq_true] at hw
  rw [Stream.offered, if_pos hw.1, List.head?_eq_none_iff] at ho
  rw [topKLeft, ho, load_ready hu hr]
  rfl

/-- A module that is ready and takes a beat, which leaves it with the request `r`. -/
theorem step_take {done later : List StreamRequest} {r : StreamRequest} {post : List SlotLine}
    {b : SlotBeat} (hreq : requests = done ++ r :: later)
    (hsent : y.sent = done.map StreamRequest.topAnswer) (hu : y.slot.unpacking = false)
    (hr : y.slot.respValid = false) (ho : y.offered i = some b)
    (htodo : y.todo = b :: (lineBeats post ++ later.flatMap StreamRequest.beats))
    (hnext : (y.slot.take b y.slot).Active r ∧ (y.slot.take b y.slot).Holds r post) :
    TopKStep requests y i := by
  have hedge := stream_take hu hr ho
  rw [htodo, List.drop_succ_cons, List.drop_zero] at hedge
  refine .of_lt ?_ ?_
  · rw [hedge]
    exact ⟨done, r :: later, hreq, hsent, .busy rfl hnext.1 hnext.2 rfl⟩
  · have hload := load_take hu hr b
    have hafter : topKLeft (y.edge i) =
        18 * (lineBeats post ++ later.flatMap StreamRequest.beats).length +
          TopK.load (TopK.take y.slot b y.slot) := by
      rw [hedge]
      rfl
    rw [hafter, topKLeft, htodo, load_ready hu hr, List.length_cons]
    omega

/-- **One edge of a stream.** -/
theorem topK_step (h : TopKStreams requests y) (i : StreamIn topK) : TopKStep requests y i := by
  have hinv := h
  obtain ⟨done, rest, hreq, hsent, hat⟩ := h
  cases hat with
  | idle hs htodo =>
      rcases y.offered_cases i with hnone | ⟨b, more, hmore, hsome⟩
      · exact step_gap hinv hs.idle.unpacking hs.idle.respValid hnone
      · rw [hmore] at htodo
        cases rest with
        | nil => cases htodo
        | cons r later =>
            obtain ⟨rfl, rfl⟩ := List.cons.inj htodo
            exact step_take hreq hsent hs.idle.unpacking hs.idle.respValid hsome hmore (holds_first hs r)
  | @busy r later post hrest ha hh htodo =>
      subst hrest
      cases hh with
      | line hdata hu hr hline hlast hranks =>
          have hedge := stream_unpack hu hr i
          refine .of_lt ?_ ?_
          · rw [hedge]
            exact ⟨done, _, hreq, hsent, .busy rfl ⟨ha.frameActive, ha.session, ha.kmask⟩
              (holds_unpack hdata hu hr hline hlast hranks) htodo⟩
          · rw [hedge]
            exact Nat.add_lt_add_left (load_unpack hu hr) _
      | between hdata hpost hu hr hranks =>
          rcases y.offered_cases i with hnone | ⟨b, more, hmore, hsome⟩
          · exact step_gap hinv hu hr hnone
          · rw [hmore] at htodo
            cases post with
            | nil => exact absurd rfl hpost
            | cons l post =>
                obtain ⟨rfl, rfl⟩ := List.cons.inj htodo
                exact step_take hreq hsent hu hr hsome hmore (holds_later ha hdata hr hranks)
      | answer hu hr hranks =>
          cases ht : i.mTready with
          | false =>
              refine .of_eq hinv (stream_hold hu hr ht) fun hw => ?_
              have hwait : y.willing i = false := by
                show (i.valid && (!(y.slot : TopK).respValid || i.mTready)) = false
                rw [hr, ht]
                exact Bool.and_false _
              rw [hwait] at hw
              cases hw
          | true =>
              have hedge := stream_accept hu hr ht
              refine .of_lt ?_ ?_
              · rw [hedge, response_answer ha hranks]
                refine ⟨done ++ [r], later, by rw [hreq, List.append_assoc]; rfl, ?_, .idle ?_ htodo⟩
                · rw [hsent, List.map_append]
                  rfl
                · exact ⟨⟨hu, rfl, rfl⟩, rfl, fun _ => rfl⟩
              · have hafter : topKLeft (y.edge i) = 18 * y.todo.length := by
                  have hclear : (TopK.clear y.slot).load = 0 := load_ready hu rfl
                  rw [hedge]
                  exact congrArg (18 * y.todo.length + ·) hclear
                rw [hafter, topKLeft, load_answer hu hr]
                exact Nat.lt_succ_self _

/-- A stream from reset. -/
def topKFrom (requests : List StreamRequest) : Stream topK := Stream.start TopK.reset requests

theorem topK_streams_start (requests : List StreamRequest) : TopKStreams requests (topKFrom requests) :=
  ⟨[], requests, rfl, rfl, .idle ⟨topK_idle_reset, rfl, fun _ => rfl⟩ rfl⟩

/-- **A run of a stream.** -/
theorem topK_run (requests : List StreamRequest) (is : List (StreamIn topK)) :
    TopKStreams requests (run Stream.edge (topKFrom requests) is) ∧
      topKLeft (run Stream.edge (topKFrom requests) is) ≤
        18 * (requests.flatMap StreamRequest.beats).length -
          count Stream.edge Stream.willing (topKFrom requests) is := by
  refine run_counted (P := fun m y => TopKStreams requests y ∧ topKLeft y ≤ m) ?_
    ⟨topK_streams_start requests, ?_⟩ is (Meets.of_forall (fun _ _ => trivial) _ is)
  · rintro m y i ⟨h, hm⟩ -
    obtain ⟨hnext, hle, hlt⟩ := topK_step h i
    refine ⟨hnext, ?_⟩
    by_cases hw : y.willing i = true
    · rw [if_pos hw]
      by_cases h0 : topKLeft y = 0
      · omega
      · have hdrop := hlt hw h0
        omega
    · rw [if_neg hw]
      exact hle.trans hm
  · have hload : TopK.load (topKFrom requests).slot = 0 := rfl
    rw [topKLeft, hload]
    exact le_rfl

/-- A stream that needs no more edges has answered everything. -/
theorem topK_streams_end (h : TopKStreams requests y) (h0 : topKLeft y = 0) :
    y.sent = requests.map StreamRequest.topAnswer := by
  obtain ⟨done, rest, hreq, hsent, hat⟩ := h
  obtain ⟨htodo0, hload⟩ := Nat.add_eq_zero_iff.mp h0
  have hnil : y.todo = [] := List.length_eq_zero_iff.mp (by omega)
  suffices hrest : rest = [] by rw [hreq, hrest, List.append_nil, hsent]
  cases hat with
  | idle hs htodo =>
      cases rest with
      | nil => rfl
      | cons r later => cases hnil.symm.trans htodo
  | @busy r later post hrest ha hh htodo =>
      exfalso
      cases hh with
      | line _ hu => exact absurd hload (load_line hu).ne'
      | between _ hpost =>
          cases post with
          | nil => exact hpost rfl
          | cons l post => cases hnil.symm.trans htodo
      | answer hu hr => exact absurd ((load_answer hu hr).symm.trans hload) Nat.one_ne_zero

end Stream

/-! ## 5. Every stream -/

/-- A word of the specification fits into a word of the line. -/
theorem largest_word (r : StreamRequest) {j : Nat} (hj : j < 16) :
    ∃ v < 2 ^ 32, (padded r.words).largest j = some v := by
  have hcard : j < ((padded r.words).sort (· ≥ ·)).length := by
    rw [Multiset.length_sort, padded, Multiset.card_add, Multiset.card_replicate]
    omega
  refine ⟨_, ?_, List.getElem?_eq_getElem hcard⟩
  have hmem := (Multiset.mem_sort (· ≥ ·)).mp (List.getElem_mem hcard)
  rcases Multiset.mem_add.mp hmem with hword | hzero
  · obtain ⟨l, -, hl⟩ := List.mem_flatMap.mp (Multiset.mem_coe.mp hword)
    obtain ⟨i, -, hi⟩ := List.mem_map.mp hl
    rw [← hi]
    exact BitVec.isLt _
  · rw [Multiset.eq_of_mem_replicate hzero]
    decide

/-- **The words of a response**, as numbers. -/
theorem topAnswer_word (r : StreamRequest) {j : Nat} (hj : j < 16) :
    (r.topAnswer.payload.extractLsb' (32 * j) 32).toNat = r.topWord j := by
  have hlt : r.topWord j < 2 ^ 32 := by
    obtain ⟨v, hv, hlargest⟩ := largest_word r hj
    rw [StreamRequest.topWord, hlargest]
    split
    · exact hv
    · decide
  refine Nat.eq_of_testBit_eq fun t => ?_
  rw [BitVec.testBit_toNat, BitVec.getLsbD_extractLsb', StreamRequest.topAnswer, getLsbD_ofBits]
  by_cases ht : t < 32
  · rw [decide_eq_true ht, decide_eq_true (by omega), Bool.true_and, Bool.true_and,
      show (32 * j + t) / 32 = j by omega, show (32 * j + t) % 32 = t by omega]
  · rw [decide_eq_false ht, Bool.false_and]
    refine (Nat.testBit_lt_two_pow (hlt.trans_le ?_)).symm
    exact Nat.pow_le_pow_right (by decide) (by omega)

/-- **`top_k` equals its specification on every stream of requests.** From reset, whatever the gaps and
    stalls, what was sent answers the first requests, one beat for each and in order; after enough edges
    that hold nothing back all requests are answered. Word `j` of an answer is the `j`-th largest word
    of its own request where the mask has a one, and else zero. -/
theorem topK_stream (requests : List StreamRequest) (is : List (StreamIn topK)) :
    (∃ k ≤ requests.length, (run Stream.edge (topKFrom requests) is).sent =
      (requests.take k).map StreamRequest.topAnswer) ∧
    (18 * (requests.flatMap StreamRequest.beats).length ≤
        count Stream.edge Stream.willing (topKFrom requests) is →
      (run Stream.edge (topKFrom requests) is).sent = requests.map StreamRequest.topAnswer) ∧
    ∀ r ∈ requests, r.topAnswer.bytes = 64 ∧ r.topAnswer.session = r.first.session ∧
      r.topAnswer.tlast = true ∧ ∀ j < 16, ∃ v, (padded r.words).largest j = some v ∧
        (r.topAnswer.payload.extractLsb' (32 * j) 32).toNat = if r.kmask.getLsbD j then v else 0 := by
  obtain ⟨hinv, hleft⟩ := topK_run requests is
  refine ⟨?_, fun henough => topK_streams_end hinv (by omega), fun r _ => ⟨rfl, rfl, rfl, ?_⟩⟩
  · obtain ⟨done, rest, rfl, hsent, -⟩ := hinv
    refine ⟨done.length, by rw [List.length_append]; omega, ?_⟩
    rw [hsent, List.take_left]
  · intro j hj
    obtain ⟨v, -, hv⟩ := largest_word r hj
    refine ⟨v, hv, ?_⟩
    rw [topAnswer_word r hj, StreamRequest.topWord, hv]
    rfl

/-- A header with one data line, then a header alone: both are answered after 54 edges. -/
theorem topK_stream_pair :
    let requests : List StreamRequest :=
      [⟨⟨128, 7, BitVec.allOnes 512⟩, [⟨128, 9, 0x900000005⟩]⟩, ⟨⟨64, 8, BitVec.allOnes 512⟩, []⟩]
    (run Stream.edge (topKFrom requests) (List.replicate 54 ⟨true, true, ()⟩)).sent =
      requests.map StreamRequest.topAnswer :=
  (topK_stream _ _).2.1 (by decide +kernel)

end Frac.Slots
