/-
  File:      Frac/Client/TopKList.lean
  Subject:   `sw/app -ints` on a device whose slot holds `top_k`: from the text of the list to the words
             that `printResponse` shows.

  * `words_lines` -- the words of a payload, line by line as the slot reads them;
  * `requestStream_words`, `requestStream_kmask` -- the request as the slot gets it;
  * `top_k_of_ints` -- **word `j` is the `j`-th largest value of the list**, where the mask has a one.
-/
import Frac.Client.AppLoop
import Frac.Client.Payload
import Frac.Slots.TopKDevice

namespace Frac.Client

open Bits Reassembly Slots

/-! ## 1. Words and lines -/

/-- The sixteen words of a line. -/
def wordsOf (l : BitVec 512) : List (BitVec 32) := (List.range 16).map fun i => l.extractLsb' (32 * i) 32

/-- A line of bytes. -/
theorem words_line {bs : List (BitVec 8)} (h : bs.length = 64) : App.words bs = wordsOf (ofBytes 64 bs) := by
  rw [App.words, h, wordsOf]
  refine List.map_congr_left fun i hi => ?_
  have hi := List.mem_range.mp hi
  refine eq_of_byteAt (k := 4) fun j hj => ?_
  rw [byteAt_ofBytes _ hj, show 32 * i = 8 * (4 * i) by omega, byteAt_extractLsb' _ _ 4 j hj,
    byteAt_ofBytes _ (by omega), List.getD_eq_getElem?_getD, List.getElem?_drop, ← List.getD_eq_getElem?_getD]

/-- **The words of a payload, line by line.** -/
theorem words_lines {m : Nat} {bs : List (BitVec 8)} (h : bs.length = 64 * m) :
    (lines 64 bs).flatMap wordsOf = App.words bs := by
  induction m generalizing bs with
  | zero =>
      rw [List.length_eq_zero_iff.mp (h.trans (Nat.mul_zero 64)), lines_nil (by decide)]
      rfl
  | succ m ih =>
      have hfirst : (bs.take 64).length = 64 := by rw [List.length_take]; omega
      have hrest : (bs.drop 64).length = 64 * m := by rw [List.length_drop]; omega
      have hsplit : App.words (bs.take 64 ++ bs.drop 64) = App.words (bs.take 64) ++ App.words (bs.drop 64) := by
        rw [App.words_eq (by rw [List.length_append]; omega), App.words_eq (by omega), App.words_eq (by omega)]
        exact lines_whole (by decide) (m := 16) (by omega) _
      rw [← List.take_append_drop 64 bs, hsplit, lines_append (by decide) hfirst, List.flatMap_cons, ih hrest,
        words_line hfirst]

/-! ## 2. The request as the slot gets it -/

section Request

variable {workload : BitVec 16} {payload : List (BitVec 8)} {topConfig : BitVec 16} {req : App.Request}
  {q : AppRequest Unit}

theorem requestStream_header (h : App.Built workload payload topConfig req) (hq : q.packets = packets req) :
    (requestStream q).first.isHeader = true := by
  rw [SlotLine.isHeader, requestStream, hq, packets_ones h]
  exact beq_self_eq_true _

theorem requestStream_words (h : App.Built workload payload topConfig req) (hq : q.packets = packets req) :
    (requestStream q).words = (App.words payload).map BitVec.toNat := by
  have hlines : (requestStream q).more.map (·.payload) = lines 64 payload := by
    rw [requestStream, slotLines, hq, packets_flatten h]
    simp only [List.map_map, List.map_cons, List.tail_cons]
    exact List.map_id _
  have hwords : ∀ l : SlotLine, lineWords l = (wordsOf l.payload).map BitVec.toNat := fun l => by
    rw [lineWords, wordsOf, List.map_map]
    rfl
  have hwhole := h.whole
  rw [requestLineBytes] at hwhole
  rw [StreamRequest.words, StreamRequest.data, if_pos (requestStream_header h hq), ← words_lines hwhole, ← hlines,
    List.flatMap_map, List.map_flatMap]
  exact List.flatMap_congr fun l _ => hwords l

theorem requestStream_kmask (h : App.Built workload payload topConfig req) (hq : q.packets = packets req) :
    (requestStream q).kmask = App.effectiveTopConfig topConfig req.flags := by
  rw [StreamRequest.kmask, if_pos (requestStream_header h hq), requestStream, hq, packets_header h]
  exact header_mask ..

end Request

/-- **The largest values**, whatever zeros are behind them. -/
theorem largest_padded {values : List Nat} (hv : ∀ v ∈ values, v < 2 ^ 32) (k j : Nat) :
    ((padded ((values.map (BitVec.ofNat 32) ++ List.replicate k 0).map BitVec.toNat)).largest j).getD 0 =
      ((values : Multiset Nat).largest j).getD 0 := by
  have hvalues : (values.map (BitVec.ofNat 32)).map BitVec.toNat = values := by
    rw [List.map_map]
    refine (List.map_congr_left fun v hmem => ?_).trans (List.map_id _)
    exact (BitVec.toNat_ofNat v 32).trans (Nat.mod_eq_of_lt (hv v hmem))
  have hpadded : padded ((values.map (BitVec.ofNat 32) ++ List.replicate k 0).map BitVec.toNat) =
      (values : Multiset Nat) + Multiset.replicate (k + 16) 0 := by
    have hzero : (0 : BitVec 32).toNat = 0 := rfl
    rw [List.map_append, hvalues, List.map_replicate, hzero, padded, ← Multiset.coe_add, add_assoc,
      Multiset.coe_replicate, ← Multiset.replicate_add]
  rw [hpadded]
  exact Multiset.largest_add_bot (values : Multiset Nat) (k + 16) j

/-! ## 3. The list -/

section List

variable {host : App.Host} {fill ints : List Char} {seed : Int} {payload : List (BitVec 8)}

/-- What `-ints` makes of a text. -/
theorem words_of_ints (h : App.buildPayload host ⟨[], ints, [], 0, fill, seed⟩ = .ok payload) :
    ∃ values k, List.Forall₂ (fun field v => App.parseUint field 32 = .ok v) (App.splitList ints) values ∧
      App.words payload = values.map (BitVec.ofNat 32) ++ List.replicate k 0 ∧ (ints ≠ [] → payload ≠ []) := by
  by_cases hints : ints = []
  · subst hints
    obtain rfl : [] = payload := Except.ok.inj h
    exact ⟨[], 0, List.Forall₂.nil, rfl, fun hne => absurd rfl hne⟩
  · rw [App.buildPayload, App.Options.set] at h
    simp only [hints, ne_eq, not_true_eq_false, not_false_eq_true, if_true, if_false] at h
    obtain ⟨values, hvalues, hne, rfl⟩ := App.intsPayload_ok h
    obtain ⟨k, -, -, hwords⟩ := App.words_ints values
    exact ⟨values, k, hvalues, hwords, fun _ => App.payloadFromUints_ne_nil hne⟩

theorem values_lt {fields : List (List Char)} {values : List Nat}
    (h : List.Forall₂ (fun field v => App.parseUint field 32 = .ok v) fields values) : ∀ v ∈ values, v < 2 ^ 32 := by
  induction h with
  | nil => exact fun v hv => absurd hv List.not_mem_nil
  | cons hv _ ih => exact List.forall_mem_cons.mpr ⟨App.parseUint_lt hv, ih⟩

/-- The flags of a request in its own segments. -/
theorem buildRequest_flags {workload topConfig : BitVec 16} {req : App.Request}
    (h : App.buildRequest workload payload topConfig false = .ok req) (hne : payload ≠ []) :
    req.flags = reqFlagFirst := by
  unfold App.buildRequest at h
  simp only at h
  split at h
  · cases h
  · rw [if_neg (fun e => hne (List.length_eq_zero_iff.mp e)), if_neg Bool.false_ne_true] at h
    rw [(App.checkSegments_ok h).1]

/-- **`top_k` on a list of values.** Whatever text `-ints` accepts, for a request of at most 512 lines to
    an application workload and on a session: the device answers with one beat on the session; word `j`
    that the client decodes is the `j`-th largest value of the list, or zero if there are fewer, where the
    mask that the slot sees has a one, and else zero. Where header and data go in segments of their own
    that mask always has word 0 and never word 1. However often the request is sent on a connection, the
    client stays in step. -/
theorem top_k_of_ints [FifoKind] {n : Nat} (h0 : 0 < n) (hn : n < 256)
    (hpayload : App.buildPayload host ⟨[], ints, [], 0, fill, seed⟩ = .ok payload)
    {workload kmask : BitVec 16} {singleSegment : Bool} {req : App.Request}
    (hreq : App.buildRequest workload payload kmask singleSegment = .ok req)
    {session : BitVec 16} (hs : session ≠ 0xFFFF) (hw : workload ≠ 0x00ab) (hl : req.totalBytes ≤ 64 * 512)
    {count : Nat} (hc : 1 ≤ count) :
    let mask := App.effectiveTopConfig kmask req.flags
    ∃ (values : List Nat) (q : AppRequest Unit) (answer : SlotBeat),
      List.Forall₂ (fun field v => App.parseUint field 32 = .ok v) (App.splitList ints) values ∧
      q.connid = session ∧ q.packets = packets req ∧ Answers n topKClean q (· = [answer]) ∧
      answer.session = session ∧
      (App.words (beatBytes [answer])).map BitVec.toNat = (List.range 16).map (fun j =>
        if mask.getLsbD j then ((values : Multiset Nat).largest j).getD 0 else 0) ∧
      (ints ≠ [] → singleSegment = false → mask.getLsbD 0 = true ∧ mask.getLsbD 1 = false) ∧
      ∃ out, App.main (fun _ => beatBytes [answer]) workload payload kmask singleSegment count = .ok out ∧
        App.InStep count out := by
  intro mask
  have hbuilt := App.buildRequest_ok hreq
  obtain ⟨values, k, hvalues, hwords, hsome⟩ := words_of_ints hpayload
  let q := deliver hbuilt session hs hw hl
  have hq : q.packets = packets req := rfl
  have hbytes : beatBytes [(requestStream q).topAnswer] = toBytes 64 (requestStream q).topAnswer.payload :=
    List.append_nil _
  refine ⟨values, q, (requestStream q).topAnswer, hvalues, rfl, hq, topK_answers h0 hn q, rfl, ?_, ?_, ?_⟩
  · rw [hbytes, words_line (length_toBytes 64 _), ofBytes_toBytes, wordsOf, List.map_map]
    refine List.map_congr_left fun j hj => ?_
    rw [Function.comp_apply, topAnswer_word _ (List.mem_range.mp hj), StreamRequest.topWord, requestStream_kmask hbuilt hq,
      requestStream_words hbuilt hq, hwords, largest_padded (values_lt hvalues)]
  · rintro hints rfl
    have hflags := buildRequest_flags hreq (hsome hints)
    have hmask : mask = kmask &&& ~~~3 ||| 1 := by
      show App.effectiveTopConfig kmask req.flags = _
      rw [hflags]
      rfl
    rw [hmask]
    simp
  · have hmain : App.main (fun _ => beatBytes [(requestStream q).topAnswer]) workload payload kmask singleSegment count =
        App.sendLoop (fun _ => beatBytes [(requestStream q).topAnswer]) req count 0 [] := by
      rw [App.main, reconfWorkloadID, if_neg hw, if_neg (Nat.not_lt.mpr hc), hreq]
    rw [hmain]
    exact (App.sendLoop_in_step (d := 0) (by rw [hbytes, length_toBytes]; rfl) hc).mpr rfl

section Source

attribute [local instance] axisDataFifos

/-- Three values: the largest, nothing, and the smallest. -/
theorem top_k_of_ints_three :
    ∃ (q : AppRequest Unit) (answer : SlotBeat), q.connid = 5 ∧ Answers 3 topKClean q (· = [answer]) ∧
      (App.words (beatBytes [answer])).map BitVec.toNat = [9, 0, 5] ++ List.replicate 13 0 := by
  have hpayload : App.buildPayload App.bareHost ⟨[], [ '5', ',', '0', 'x', '9', ' ', '7'], [], 0, [], 1⟩ =
      .ok (leBytes 4 5 ++ (leBytes 4 9 ++ (leBytes 4 7 ++ List.replicate 52 0))) := by decide +kernel
  obtain ⟨req, hreq⟩ : ∃ req, App.buildRequest 1 (leBytes 4 5 ++ (leBytes 4 9 ++ (leBytes 4 7 ++ List.replicate 52 0)))
      0xffff false = .ok req := ⟨_, rfl⟩
  have hflags := buildRequest_flags hreq (List.cons_ne_nil _ _)
  have htotal : req.totalBytes ≤ 64 * 512 := by
    rw [(App.buildRequest_ok hreq).total]
    decide
  obtain ⟨values, q, answer, hvalues, hsession, -, hanswers, -, hwords, -⟩ := top_k_of_ints (n := 3) (by decide)
    (by decide) hpayload hreq (by decide : (5 : BitVec 16) ≠ 0xFFFF) (by decide) htotal (by decide : 1 ≤ 2)
  refine ⟨q, answer, hsession, hanswers, ?_⟩
  have hparse : App.parseFields (fun field => App.parseUint field 32) .int _ = .ok values :=
    App.parseFields_ok.mpr hvalues
  have hthree : App.parseFields (fun field => App.parseUint field 32) .int
      (App.splitList [ '5', ',', '0', 'x', '9', ' ', '7']) = .ok [5, 9, 7] := by decide +kernel
  obtain rfl : [5, 9, 7] = values := Except.ok.inj (hthree.symm.trans hparse)
  have hlargest : ∀ j, (([5, 9, 7] : List Nat) : Multiset Nat).largest j = [9, 7, 5][j]? := fun j => by
    have hperm : ((([5, 9, 7] : List Nat) : Multiset Nat).sort (· ≥ ·)).Perm [9, 7, 5] := by
      rw [← Multiset.coe_eq_coe, Multiset.sort_eq]
      decide
    rw [Multiset.largest, hperm.eq_of_pairwise' (Multiset.pairwise_sort _ _) (by decide)]
  rw [hwords, hflags]
  simp only [hlargest]
  decide

end Source

end List

end Frac.Client
