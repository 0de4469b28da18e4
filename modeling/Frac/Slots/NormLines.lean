/-
  File:      Frac/Slots/NormLines.lean
  Subject:   `norm.v` line by line, as its registers have it: which lines are in the buffer and compared,
             which words are issued, which results are packed, and what is sent. The cores are not part of
             it; all that is asked of them is that the range is the range, and that a result which is
             packed belongs to the next word.

  * `ieee` -- the order of the words as numbers; `fkey_lt` -- **the key orders them so**;
  * `Buffered`, `Scanned` -- the lines held, and the extremes of the words compared;
  * `NormPos` -- **where a request is**, by stage (`NormStage`);
  * `normPos_rx`, `normPos_range`, `normPos_second` -- **one edge of each stage**.
-/
import Frac.Lib.Largest
import Frac.Slots.Flight
import Frac.Slots.Norm

namespace Frac.Slots

open Bits

/-! ## 1. The order of the words -/

/-- **The order of IEEE-754 numbers**: sign and magnitude, `-0` below `+0`. -/
def ieee (f : BitVec 32) : Int :=
  if f.getLsbD 31 then -1 - (f.toNat % 2 ^ 31 : Nat) else (f.toNat % 2 ^ 31 : Nat)

/-- The exponent is all ones, and the fraction is not zero. -/
def isNaN (f : BitVec 32) : Bool := f.extractLsb' 23 8 == BitVec.allOnes 8 && f.extractLsb' 0 23 != 0

theorem sign_toNat (f : BitVec 32) : f.getLsbD 31 = decide (2 ^ 31 ≤ f.toNat) := by
  have hlt := f.isLt
  rw [BitVec.getLsbD, Nat.testBit_eq_decide_div_mod_eq]
  refine decide_eq_decide.mpr ?_
  omega

/-- **The key is the order**, moved up to the unsigned numbers. -/
theorem fkey_ieee (f : BitVec 32) : ((fkey f).toNat : Int) = ieee f + 2 ^ 31 := by
  have hlt := f.isLt
  unfold fkey ieee
  cases hs : f.getLsbD 31 with
  | true =>
      have hneg := of_decide_eq_true ((sign_toNat f).symm.trans hs)
      rw [if_pos rfl, if_pos rfl, BitVec.toNat_not]
      omega
  | false =>
      have hpos := of_decide_eq_false ((sign_toNat f).symm.trans hs)
      have hor : (f ||| 0x80000000).toNat = 2 ^ 31 * 1 + f.toNat := by
        rw [BitVec.toNat_or, Nat.or_comm, Nat.two_pow_add_eq_or_of_lt (by omega) 1]
        rfl
      rw [if_neg Bool.false_ne_true, if_neg Bool.false_ne_true, hor]
      omega

theorem fkey_lt (x y : BitVec 32) : fkey x < fkey y ↔ ieee x < ieee y := by
  have hx := fkey_ieee x
  have hy := fkey_ieee y
  rw [BitVec.lt_def]
  omega

/-- Every number is above the key of a scan that has seen nothing, `max_key`. -/
theorem fkey_pos {x : BitVec 32} (h : isNaN x = false) : 0 < fkey x := by
  rw [BitVec.lt_def]
  refine Nat.pos_of_ne_zero fun hzero => ?_
  have hx := fkey_ieee x
  have hlt := x.isLt
  rw [hzero, ieee] at hx
  split at hx
  · rename_i hneg
    have hle := of_decide_eq_true ((sign_toNat x).symm.trans hneg)
    have hfull : x.toNat = 4294967295 := by omega
    rw [show x = 0xFFFFFFFF from BitVec.eq_of_toNat_eq hfull] at h
    cases h
  · omega

/-- And below `min_key`. -/
theorem fkey_below {x : BitVec 32} (h : isNaN x = false) : fkey x < 0xFFFFFFFF := by
  rw [BitVec.lt_def]
  have hx := fkey_ieee x
  have hlt := (fkey x).isLt
  refine Nat.lt_of_le_of_ne (Nat.le_of_lt_succ hlt) fun hfull => ?_
  rw [show (fkey x).toNat = 4294967295 from hfull, ieee] at hx
  split at hx
  · omega
  · rename_i hpos
    have hle := of_decide_eq_false ((sign_toNat x).symm.trans (Bool.eq_false_iff.mpr hpos))
    have hval : x.toNat = 2147483647 := by omega
    rw [show x = 0x7FFFFFFF from BitVec.eq_of_toNat_eq hval] at h
    cases h

/-! ## 2. The extremes -/

/-- What the cores compute. -/
structure NormFn where
  sub : BitVec 32 → BitVec 32 → BitVec 32
  div : BitVec 32 → BitVec 32 → BitVec 32

/-- **A word between the extremes of its request.** -/
def NormFn.scaled (F : NormFn) (least greatest x : BitVec 32) : BitVec 32 :=
  F.div (F.sub x least) (F.sub greatest least)

namespace StreamRequest

/-- **The extremes of a request**, by the order of the integers that is computed with. -/
def least (r : StreamRequest) : BitVec 32 :=
  (@List.argmin _ _ Int.instLinearOrder.toPreorder Int.instLinearOrder.toDecidableLT ieee r.allValues).getD 0
def greatest (r : StreamRequest) : BitVec 32 :=
  (@List.argmax _ _ Int.instLinearOrder.toPreorder Int.instLinearOrder.toDecidableLT ieee r.allValues).getD 0

variable {r : StreamRequest}

/-- **The extremes of a request bound its words.** -/
theorem extremes (h : r.data ≠ []) : r.least ∈ r.allValues ∧ r.greatest ∈ r.allValues ∧
    ∀ x ∈ r.allValues, ieee r.least ≤ ieee x ∧ ieee x ≤ ieee r.greatest := by
  obtain ⟨mn, hmn⟩ := Option.ne_none_iff_exists'.mp (mt List.argmin_eq_none.mp (allValues_ne_nil h) :
    @List.argmin _ _ Int.instLinearOrder.toPreorder Int.instLinearOrder.toDecidableLT ieee r.allValues ≠ none)
  obtain ⟨mx, hmx⟩ := Option.ne_none_iff_exists'.mp (mt List.argmax_eq_none.mp (allValues_ne_nil h) :
    @List.argmax _ _ Int.instLinearOrder.toPreorder Int.instLinearOrder.toDecidableLT ieee r.allValues ≠ none)
  rw [least, greatest, hmn, hmx]
  exact ⟨List.argmin_mem hmn, List.argmax_mem hmx, fun x hx =>
    ⟨List.le_of_mem_argmin hx hmn, List.le_of_mem_argmax hx hmx⟩⟩

end StreamRequest

/-- **A request that `norm` can hold**: at most `MAX_LINES` data lines, and no word that is not a number. -/
structure NormFits (r : StreamRequest) : Prop where
  some : 1 ≤ r.data.length
  lines : r.data.length ≤ 256
  numbers : ∀ l ∈ r.data, ∀ i, isNaN (word l.payload i) = false

theorem NormFits.all {r : StreamRequest} (h : NormFits r) : ∀ x ∈ r.allValues, isNaN x = false := by
  intro x hx
  obtain ⟨l, hl, i, rfl⟩ := StreamRequest.mem_allValues.mp hx
  exact h.numbers l hl i

theorem NormFits.ne_nil {r : StreamRequest} (h : NormFits r) : r.data ≠ [] := List.ne_nil_of_length_pos h.some

/-! ## 3. The first pass -/

/-- **The extremes of the words `ws`**, as the scan has them. -/
structure Scanned (ws : List (BitVec 32)) (s : Norm) : Prop where
  max : ws.Records ieee fkey 0 s.maxKey s.maxVal
  min : ws.Records (fun x => OrderDual.toDual (ieee x)) fkey 0xFFFFFFFF s.minKey s.minVal

/-- One word more. -/
theorem scanned_scan {ws : List (BitVec 32)} {s : Norm} (h : Scanned ws s)
    (hx : isNaN (word s.hold s.scanIdx) = false) : Scanned (ws ++ [word s.hold s.scanIdx]) (s.scan s) := by
  refine ⟨h.max.concat (fun hk => ?_) fun x hk => ?_, h.min.concat (fun hk => ?_) fun x hk => ?_⟩
  · rw [hk]
    exact fkey_pos hx
  · rw [hk]
    exact fkey_lt x _
  · rw [hk]
    exact fkey_below hx
  · rw [hk, fkey_lt]
    exact OrderDual.toDual_lt_toDual.symm

/-- All words are compared. -/
theorem scanned_all {r : StreamRequest} {s : Norm} (h : Scanned r.allValues s) (hdata : r.data ≠ []) :
    s.minVal = r.least ∧ s.maxVal = r.greatest := by
  have hmin : r.allValues.argmin ieee = some s.minVal := h.min.eq (StreamRequest.allValues_ne_nil hdata)
  have hmax : r.allValues.argmax ieee = some s.maxVal := h.max.eq (StreamRequest.allValues_ne_nil hdata)
  rw [StreamRequest.least, StreamRequest.greatest, hmin, hmax]
  exact ⟨rfl, rfl⟩

/-- **The first `k` data lines are in the buffer.** -/
structure Buffered (r : StreamRequest) (k : Nat) (s : Norm) : Prop where
  nlines : s.nlines.toNat = k
  lines : ∀ i l, i < k → r.data[i]? = some l → s.linebuf (BitVec.ofNat 8 i) = l.payload

/-- The registers a request has set with its first line. -/
structure NormActive (r : StreamRequest) (s : Norm) : Prop where
  frameActive : s.frameActive = true
  respSession : s.respSession = r.first.session
  reqBytes : s.reqBytes = r.first.bytes
  sawHeader : s.sawHeader = r.first.isHeader

/-- A line that is not the header of a request. -/
theorem norm_take_data {s : Norm} {b : SlotBeat} (h : (!s.frameActive && b.isHeader) = false) :
    s.take b = { s with
      respSession := if s.frameActive then s.respSession else b.session
      reqBytes := if s.frameActive then s.reqBytes else b.bytes
      sawHeader := if s.frameActive then s.sawHeader else b.isHeader
      frameActive := true
      linebuf := fun k => if k = s.nlines.setWidth 8 then b.payload else s.linebuf k
      hold := b.payload
      nlines := s.nlines + 1
      lastSeen := b.tlast
      scanIdx := 0
      scanning := true } := by
  unfold Norm.take
  rw [h]
  cases s.frameActive <;> rfl

theorem norm_take_header {s : Norm} {b : SlotBeat} (hf : s.frameActive = false) (hb : b.isHeader = true) :
    s.take b = { s with
      respSession := b.session
      reqBytes := b.bytes
      sawHeader := true
      frameActive := !b.tlast } := by
  unfold Norm.take
  rw [hf, hb]
  rfl

/-- A line number as an address of the buffer. -/
theorem buffer_index (x : BitVec 9) : x.setWidth 8 = BitVec.ofNat 8 x.toNat := by
  refine BitVec.eq_of_toNat_eq ?_
  rw [BitVec.toNat_setWidth, BitVec.toNat_ofNat]

/-- A line goes into the buffer. -/
theorem buffered_take {r : StreamRequest} {k : Nat} {s : Norm} {l : SlotLine} {b : SlotBeat}
    (h : Buffered r k s) (hk : k < 256) (hl : r.data[k]? = some l) (hb : b.payload = l.payload)
    (hdata : (!s.frameActive && b.isHeader) = false) : Buffered r (k + 1) (s.take b) := by
  rw [norm_take_data hdata]
  refine ⟨?_, fun i l' hi hl' => ?_⟩
  · show (s.nlines + 1).toNat = k + 1
    rw [toNat_succ (by rw [h.nlines]; omega), h.nlines]
  · show (if BitVec.ofNat 8 i = s.nlines.setWidth 8 then b.payload else s.linebuf (BitVec.ofNat 8 i)) = _
    rw [buffer_index, h.nlines]
    by_cases heq : i = k
    · rw [heq, hl] at hl'
      rw [heq, if_pos rfl, hb]
      exact congrArg SlotLine.payload (Option.some_injective _ hl')
    · rw [if_neg fun e => ?_]
      · exact h.lines i l' (by omega) hl'
      · have hval := congrArg BitVec.toNat e
        rw [BitVec.toNat_ofNat, BitVec.toNat_ofNat] at hval
        omega

/-! ## 4. A line of the second pass -/

/-- What an edge does to the data of a line under way. -/
structure NormData (s : Norm) (c : NormCores) (s' : Norm) : Prop where
  linebuf : s'.linebuf = s.linebuf
  hold : s'.hold = if s.issuing && !s.repLoaded then s.linebuf (s.repLine.setWidth 8) else s.hold
  acc : s'.acc = if s.resultFire c then setWord s.acc s.packIdx c.divResData else s.acc
  minVal : s'.minVal = s.minVal
  range : s'.range = s.range
  frameActive : s'.frameActive = s.frameActive
  respSession : s'.respSession = s.respSession
  reqBytes : s'.reqBytes = s.reqBytes
  sawHeader : s'.sawHeader = s.sawHeader

theorem norm_data {s : Norm} (hs : s.state = .norm) (hc : s.scanning = false) {t : Bool}
    (hr : (s.respValid && t) = false) (o : Option SlotBeat) (c : NormCores) :
    NormData s c (s.edge o t c) := by
  have h0 : s.tready = false := by rw [Norm.tready, hs]; rfl
  have h2 : s.state ≠ .range := by rw [hs]; exact Pass.noConfusion
  unfold Norm.edge
  simp only [h0, hc, hr, if_neg h2, if_pos hs, Bool.false_eq_true, if_false, Norm.replay]
  refine ⟨?_, ?_, ?_, ?_, ?_, ?_, ?_, ?_, ?_⟩ <;>
    cases s.resultFire c <;> cases s.issuing && !s.repLoaded <;> cases s.subFire c <;> rfl

/-- The word issued at an edge of the second pass. -/
def Norm.issued (s : Norm) (c : NormCores) : Option (BitVec 32) :=
  if s.subFire c then some (word s.hold s.repIdx) else none

/-- **The lines are played back**, `k` of them are answered. -/
structure NormReplays (F : NormFn) (r : StreamRequest) (lo hi : BitVec 32) (k : Nat) (s : Norm) : Prop where
  state : s.state = .norm
  scanning : s.scanning = false
  buffered : Buffered r r.data.length s
  minVal : s.minVal = lo
  range : s.range = F.sub hi lo
  repLine : s.repLine.toNat = k
  flushed : s.flushCnt = 0

/-- **The words of a line are on their way**, once it is fetched: the first results are packed. -/
structure NormLoad (F : NormFn) (r : StreamRequest) (lo hi : BitVec 32) (k : Nat) (line : BitVec 512) (s : Norm) :
    Prop extends NormReplays F r lo hi k s where
  held : s.repLoaded = true → s.hold = line
  loaded : s.repLoaded = false → s.issuing = true
  words : Filling s.issuing s.repIdx s.packIdx s.outstanding
  respValid : s.respValid = false
  packed : Packed (F.scaled lo hi) line s.packIdx.toNat s.acc

/-- **The response of a line is offered.** -/
structure NormOffer (F : NormFn) (r : StreamRequest) (lo hi : BitVec 32) (k : Nat) (line : BitVec 512) (s : Norm) :
    Prop extends NormReplays F r lo hi k s where
  issuing : s.issuing = false
  respValid : s.respValid = true
  respLast : s.respLast = decide (k + 1 = r.data.length)
  outstanding : s.outstanding = 0
  packIdx : s.packIdx = 0
  acc : s.acc = mapWords (F.scaled lo hi) line

section Line

variable {F : NormFn} {r : StreamRequest} {lo hi : BitVec 32} {k : Nat} {line : BitVec 512} {s : Norm}

theorem norm_flushed (h : s.flushCnt = 0) (o : Option SlotBeat) (t : Bool) (c : NormCores) :
    (s.edge o t c).flushCnt = 0 := by
  refine BitVec.eq_of_toNat_eq ?_
  rw [norm_flush, h]
  rfl

/-- The lines stay in the buffer, and what was measured stays. -/
theorem replays_edge (h : NormReplays F r lo hi k s) {t : Bool} (hr : (s.respValid && t) = false)
    (o : Option SlotBeat) (c : NormCores) : NormReplays F r lo hi k (s.edge o t c) := by
  obtain ⟨hstep, -⟩ := norm_step h.state h.scanning hr o c
  have hdata := norm_data h.state h.scanning hr o c
  refine ⟨hstep.state, hstep.scanning, ⟨?_, fun i l hi hl => ?_⟩, hdata.minVal.trans h.minVal,
    hdata.range.trans h.range, ?_, norm_flushed h.flushed o t c⟩
  · exact (congrArg BitVec.toNat hstep.nlines).trans h.buffered.nlines
  · exact (congrFun hdata.linebuf _).trans (h.buffered.lines i l hi hl)
  · exact (congrArg BitVec.toNat hstep.repLine).trans h.repLine

theorem norm_unissued (hs : s.state = .norm) (hi : s.issuing = false) (c : NormCores) : s.subFire c = false := by
  rw [subFire_norm hs, hi]
  rfl

/-- The word issued is one of the line. -/
theorem normLoad_issued (h : NormLoad F r lo hi k line s) (c : NormCores) :
    s.issued c = if s.subFire c then some (word line s.repIdx) else none := by
  unfold Norm.issued
  cases hfire : s.subFire c with
  | false => rfl
  | true =>
      rw [subFire_norm h.state, Bool.and_eq_true, Bool.and_eq_true, Bool.and_eq_true] at hfire
      rw [h.held hfire.1.1.2]

/-- **One edge of a line whose words are on their way**: a result that is packed is the one of the next
    word. -/
theorem normLoad_edge (h : NormLoad F r lo hi k line s) (hk : k < r.data.length)
    (hline : s.linebuf (BitVec.ofNat 8 k) = line) {c : NormCores}
    (hres : s.resultFire c = true → c.divResData = F.scaled lo hi (word line s.packIdx)) (o : Option SlotBeat)
    (t : Bool) :
    (NormLoad F r lo hi k line (s.edge o t c) ∧
      (s.edge o t c).packIdx.toNat = s.packIdx.toNat + (s.resultFire c).toNat) ∨
    (NormOffer F r lo hi k line (s.edge o t c) ∧ s.issuing = false ∧
      s.packIdx.toNat + (s.resultFire c).toNat = 16) := by
  have hresp : (s.respValid && t) = false := by rw [h.respValid]; rfl
  obtain ⟨hstep, -⟩ := norm_step h.state h.scanning hresp o c
  have hdata := norm_data h.state h.scanning hresp o c
  have hplays := replays_edge h.toNormReplays hresp o c
  have hpacked : Packed (F.scaled lo hi) line (s.packIdx.toNat + (s.resultFire c).toNat) (s.edge o t c).acc := by
    rw [hdata.acc]
    cases hfire : s.resultFire c with
    | false => exact h.packed
    | true =>
        rw [if_pos rfl, hres hfire]
        exact packed_word h.packed
  obtain ⟨-, hpack, -⟩ := filling_counts hstep.words (filling_owed h.words) owed_pos
  have hlast : (s.repLine == s.nlines - 1) = decide (k + 1 = r.data.length) := by
    rw [norm_last h.buffered.nlines (by rw [h.repLine]; exact hk), h.repLine]
  cases (norm_fill hstep h.state h.words h.loaded h.respValid hlast t).1 with
  | fill hf hl hr =>
      have hmore : (s.resultFire c && decide (s.packIdx = 15)) = false := by
        rw [← hr, hstep.respValid, h.respValid, Bool.or_false]
      rw [Nat.mod_eq_of_lt (packs_below hmore)] at hpack
      rw [← hpack] at hpacked
      refine Or.inl ⟨⟨hplays, fun _ => hdata.hold.trans ?_, hl, hf, hr, hpacked⟩, hpack⟩
      -- the line held is the one in the buffer, or is fetched from there at this edge
      cases hload : s.repLoaded with
      | true =>
          rw [Bool.not_true, Bool.and_false, if_neg Bool.false_ne_true]
          exact h.held hload
      | false =>
          rw [h.loaded hload, Bool.not_false, Bool.and_true, if_pos rfl, buffer_index, h.repLine]
          exact hline
  | answer hi hr hl ho hp =>
      have hend : (s.resultFire c && decide (s.packIdx = 15)) = true := by
        rw [← hr, hstep.respValid, h.respValid, Bool.or_false]
      have hissued := (filling_ends hstep.words h.words (subFire_issuing h.state) owed_pos hend).1
      have hsum : s.packIdx.toNat + (s.resultFire c).toNat = 16 := by
        rw [Bool.and_eq_true, decide_eq_true_eq] at hend
        rw [hend.1, hend.2]
        rfl
      rw [hsum] at hpacked
      exact Or.inr ⟨⟨hplays, hi, hr, hl, ho, hp, packed_all hpacked⟩, hissued, hsum⟩

/-- A response that is not accepted stays. -/
theorem normOffer_edge (h : NormOffer F r lo hi k line s) (o : Option SlotBeat) (c : NormCores) :
    NormOffer F r lo hi k line (s.edge o false c) := by
  have hresp : (s.respValid && false) = false := Bool.and_false _
  obtain ⟨hstep, -⟩ := norm_step h.state h.scanning hresp o c
  have hdata := norm_data h.state h.scanning hresp o c
  have hres : s.resultFire c = false := by rw [Norm.resultFire, h.outstanding]; exact Bool.and_false _
  cases (norm_answer hstep h.state h.issuing h.respValid h.respLast h.outstanding h.packIdx).1 with
  | fill _ _ hr =>
      have hvalid := hstep.respValid
      rw [hr, h.respValid, Bool.or_true] at hvalid
      cases hvalid
  | answer hi hr hl ho hp =>
      exact ⟨replays_edge h.toNormReplays hresp o c, hi, hr, hl, ho, hp,
        hdata.acc.trans (by rw [hres]; exact h.acc)⟩

/-- A line is about to be fetched. -/
theorem normLoad_starts (hplays : NormReplays F r lo hi k s) (hl : s.repLoaded = false) (hg : s.issuing = true)
    (hx : s.repIdx = 0) (hp : s.packIdx = 0) (ho : s.outstanding = 0) (hr : s.respValid = false) :
    NormLoad F r lo hi k line s := by
  refine ⟨hplays, fun e => ?_, fun _ => hg, ?_, hr, ?_⟩
  · rw [hl] at e
    cases e
  · rw [Filling, hg, hx, hp, ho]
    rfl
  · rw [hp]
    exact packed_zero

end Line

/-! ## 5. A request -/

/-- No request is under way, and no word is compared. -/
structure Norm.Clean (s : Norm) : Prop extends s.Idle where
  maxKey : s.maxKey = 0
  minKey : s.minKey = 0xFFFFFFFF

theorem Norm.Idle.still {s : Norm} (h : s.Idle) : s.Still := ⟨h.respValid, h.outstanding, h.packIdx⟩

theorem normIdle_tready {s : Norm} (h : s.Idle) : s.tready = (s.flushCnt == 0) := by
  rw [Norm.tready, h.state, h.scanning, h.nlines]
  rfl

/-- A beat that is not taken leaves no trace. -/
theorem norm_blind {s : Norm} (h : s.tready = false) (o : Option SlotBeat) (t : Bool) (c : NormCores) :
    s.edge o t c = s.edge none t c := by
  unfold Norm.edge
  rw [h]
  rfl

/-- **Line `k` is compared** word by word. -/
structure NormScan (r : StreamRequest) (k : Nat) (line : BitVec 512) (s : Norm) : Prop where
  state : s.state = .rx
  scanning : s.scanning = true
  still : s.Still
  hold : s.hold = line
  lastSeen : s.lastSeen = decide (k + 1 = r.data.length)
  buffered : Buffered r (k + 1) s
  scanned : NormFits r → Scanned (r.valuesTo k ++ (values line).take s.scanIdx.toNat) s
  flushed : s.flushCnt = 0

/-- **The range is measured.** -/
structure NormRange (r : StreamRequest) (lo hi : BitVec 32) (s : Norm) : Prop where
  state : s.state = .range
  scanning : s.scanning = false
  still : s.Still
  buffered : Buffered r r.data.length s
  minVal : s.minVal = lo
  maxVal : s.maxVal = hi
  flushed : s.flushCnt = 0

/-- The extremes found for a request. -/
def Extremes (r : StreamRequest) (lo hi : BitVec 32) : Prop := NormFits r → lo = r.least ∧ hi = r.greatest

/-- The stages of a request: lines are taken and compared, the range is measured, and the words `w` are
    issued, `n` of them packed. -/
inductive NormStage where
  | first
  | range (lo hi : BitVec 32)
  | second (lo hi : BitVec 32) (w : List (BitVec 32)) (n : Nat)

/-- **Where the request `r` is** once `j` of its beats are taken and `out` is sent. -/
inductive NormPos (F : NormFn) (r : StreamRequest) : NormStage → Nat → Norm → List SlotBeat → Prop where
  | between {j k s} (h0 : 0 < j) (hj : j = r.headers + k) (hk : k < r.data.length) (ha : NormActive r s)
      (hs : s.state = .rx) (hc : s.scanning = false) (hq : s.Still) (hz : s.flushCnt = 0) (hb : Buffered r k s)
      (hx : NormFits r → Scanned (r.valuesTo k) s) : NormPos F r .first j s []
  | scan {j k s l} (hj : j = r.headers + k + 1) (hl : r.data[k]? = some l) (ha : NormActive r s)
      (hs : NormScan r k l.payload s) : NormPos F r .first j s []
  | range {j s lo hi} (hj : j = r.lines.length) (hd : r.data ≠ []) (ha : NormActive r s) (he : Extremes r lo hi)
      (hr : NormRange r lo hi s) : NormPos F r (.range lo hi) j s []
  | load {j k s l lo hi w n out} (hj : j = r.lines.length) (hl : r.data[k]? = some l) (ha : NormActive r s)
      (he : Extremes r lo hi) (hload : NormLoad F r lo hi k l.payload s)
      (hw : w = r.valuesTo k ++ (values l.payload).take (issuedWords s.issuing s.repIdx))
      (hn : n = 16 * k + s.packIdx.toNat)
      (hout : out ++ r.left (mapWords (F.scaled lo hi)) k = r.reply (mapWords (F.scaled lo hi))) :
      NormPos F r (.second lo hi w n) j s out
  | offer {j k s l lo hi w n out} (hj : j = r.lines.length) (hl : r.data[k]? = some l) (ha : NormActive r s)
      (he : Extremes r lo hi) (hoffer : NormOffer F r lo hi k l.payload s) (hw : w = r.valuesTo (k + 1))
      (hn : n = 16 * (k + 1))
      (hout : out ++ r.left (mapWords (F.scaled lo hi)) k = r.reply (mapWords (F.scaled lo hi))) :
      NormPos F r (.second lo hi w n) j s out

/-- **The request is answered.** -/
structure NormDone (F : NormFn) (r : StreamRequest) (lo hi : BitVec 32) (j : Nat) (s : Norm)
    (out : List SlotBeat) : Prop where
  clean : s.Clean
  flushed : s.flushCnt = 0
  beats : j = r.lines.length
  extremes : Extremes r lo hi
  out : out = r.reply (mapWords (F.scaled lo hi))

section Request

variable {F : NormFn} {r : StreamRequest} {lo hi : BitVec 32} {j k : Nat} {s : Norm} {out : List SlotBeat}

/-- A data line of the request is taken. -/
theorem normPos_data {l : SlotLine} (hj : j = r.headers + k) (hk : k < 256) (hl : r.data[k]? = some l)
    (hs : s.state = .rx) (hq : s.Still) (hz : s.flushCnt = 0) (hb : Buffered r k s)
    (hx : NormFits r → Scanned (r.valuesTo k) s) (hneg : (!s.frameActive && l.isHeader) = false)
    (hsession : (if s.frameActive then s.respSession else l.session) = r.first.session)
    (hbytes : (if s.frameActive then s.reqBytes else l.bytes) = r.first.bytes)
    (hheader : (if s.frameActive then s.sawHeader else l.isHeader) = r.first.isHeader) :
    NormPos F r .first (j + 1) (s.tick (s.take (l.beat (decide (k + 1 = r.data.length))))) [] := by
  have hbuf := buffered_take (b := l.beat (decide (k + 1 = r.data.length))) hb hk hl rfl hneg
  have htake := norm_take_data (s := s) (b := l.beat (decide (k + 1 = r.data.length))) hneg
  have hcount : (if s.flushCnt = 0 then 0 else s.flushCnt - 1) = 0 := if_pos hz
  rw [htake] at hbuf ⊢
  refine .scan (by omega) hl ⟨rfl, hsession, hbytes, hheader⟩ ⟨hs, rfl, ⟨hq.respValid, hq.outstanding, hq.packIdx⟩,
    rfl, rfl, ⟨hbuf.nlines, hbuf.lines⟩, fun hfits => ?_, hcount⟩
  rw [show (values l.payload).take _ = [] from rfl, List.append_nil]
  exact ⟨(hx hfits).max, (hx hfits).min⟩

/-- **The first beat of a request is taken**; a header alone is a request that is answered. -/
theorem normPos_first (h : s.Clean) (hz : s.flushCnt = 0) :
    NormPos F r .first 1 (s.tick (s.take (r.first.beat r.more.isEmpty))) [] ∨
      (r.data = [] ∧ NormDone F r 0 0 1 (s.tick (s.take (r.first.beat r.more.isEmpty))) []) := by
  have hcount : (if s.flushCnt = 0 then 0 else s.flushCnt - 1) = 0 := if_pos hz
  have hnil : Scanned (r.valuesTo 0) s := ⟨h.maxKey, h.minKey⟩
  have hbuf : Buffered r 0 s := ⟨by rw [h.nlines]; rfl, fun i l hi => absurd hi (Nat.not_lt_zero i)⟩
  cases hh : r.first.isHeader with
  | true =>
      have hdata : r.data = r.more := if_pos hh
      have hhead : r.headers = 1 := if_pos hh
      have htake : s.take (r.first.beat r.more.isEmpty) = _ := norm_take_header h.frameActive hh
      rw [htake]
      cases hmore : r.more with
      | nil =>
          have hempty : r.data = [] := hdata.trans hmore
          refine Or.inr ⟨hempty, ⟨⟨h.state, h.scanning, h.nlines, rfl, h.respValid, h.outstanding, h.packIdx⟩,
            h.maxKey, h.minKey⟩, hcount, ?_, fun hfits => absurd hempty hfits.ne_nil, ?_⟩
          · rw [StreamRequest.lines_length, hempty, hhead]
            rfl
          · rw [StreamRequest.reply, hempty]
            rfl
      | cons l post =>
          refine Or.inl (.between (k := 0) Nat.one_pos hhead.symm ?_ ⟨rfl, rfl, rfl, hh.symm⟩ h.state h.scanning
            ⟨h.respValid, h.outstanding, h.packIdx⟩ hcount ⟨hbuf.nlines, hbuf.lines⟩ fun _ => ⟨hnil.max, hnil.min⟩)
          rw [hdata, hmore]
          exact Nat.succ_pos _
  | false =>
      have hdata : r.data = r.lines := if_neg (by rw [hh]; exact Bool.false_ne_true)
      have hhead : r.headers = 0 := if_neg (by rw [hh]; exact Bool.false_ne_true)
      have hlast : r.more.isEmpty = decide (0 + 1 = r.data.length) := by
        rw [hdata, Bool.eq_iff_iff, decide_eq_true_eq, List.isEmpty_iff, ← List.length_eq_zero_iff]
        show _ ↔ 0 + 1 = r.more.length + 1
        omega
      rw [hlast]
      refine Or.inl (normPos_data (j := 0) hhead.symm (by omega) (by rw [hdata]; rfl) h.state h.still hz hbuf
        (fun _ => hnil) ?_ ?_ ?_ ?_)
      · rw [hh, Bool.and_false]
      · rw [h.frameActive]; rfl
      · rw [h.frameActive]; rfl
      · rw [h.frameActive]; rfl

/-- A later line is taken. -/
theorem normPos_later {l : SlotLine} (hj : j = r.headers + k) (hk : k < 256) (hl : r.data[k]? = some l)
    (ha : NormActive r s) (hs : s.state = .rx) (hq : s.Still) (hz : s.flushCnt = 0) (hb : Buffered r k s)
    (hx : NormFits r → Scanned (r.valuesTo k) s) :
    NormPos F r .first (j + 1) (s.tick (s.take (l.beat (decide (k + 1 = r.data.length))))) [] := by
  refine normPos_data hj hk hl hs hq hz hb hx ?_ ?_ ?_ ?_
  · rw [ha.frameActive]; rfl
  · rw [ha.frameActive]; exact ha.respSession
  · rw [ha.frameActive]; exact ha.reqBytes
  · rw [ha.frameActive]; exact ha.sawHeader

/-- A stage of the first pass after an edge of it: the lines go on, or the range is to be measured. -/
def NormRx (F : NormFn) (r : StreamRequest) (j : Nat) (s : Norm) : Prop :=
  NormPos F r .first j s [] ∨ ∃ lo hi, NormPos F r (.range lo hi) j s [] ∧ s.rangeIssued = false

/-- **A word is compared.** -/
theorem normPos_scan {l : SlotLine} (hj : j = r.headers + k + 1) (hl : r.data[k]? = some l)
    (ha : NormActive r s) (hs : NormScan r k l.payload s) : NormRx F r j (s.tick (s.scan s)) := by
  have hlt : k < r.data.length := (List.getElem?_eq_some_iff.mp hl).1
  have hcount : (if s.flushCnt = 0 then 0 else s.flushCnt - 1) = 0 := if_pos hs.flushed
  have ha' : NormActive r (s.tick (s.scan s)) := ⟨ha.frameActive, ha.respSession, ha.reqBytes, ha.sawHeader⟩
  have hstill : (s.tick (s.scan s)).Still := ⟨hs.still.respValid, hs.still.outstanding, hs.still.packIdx⟩
  have hbuf : Buffered r (k + 1) (s.tick (s.scan s)) := ⟨hs.buffered.nlines, hs.buffered.lines⟩
  -- the words compared now
  have hscanned : NormFits r →
      Scanned (r.valuesTo k ++ (values l.payload).take (s.scanIdx.toNat + 1)) (s.scan s) := by
    intro hfits
    have hnum : isNaN (word s.hold s.scanIdx) = false := by
      rw [hs.hold]
      exact hfits.numbers l (List.mem_of_getElem? hl) _
    have hmore := scanned_scan (hs.scanned hfits) hnum
    rw [hs.hold, List.append_assoc] at hmore
    rw [List.take_add_one, values_getElem?]
    exact hmore
  by_cases hend : s.scanIdx = 15
  · have hscan : (s.scan s).scanning = false := if_pos hend
    have hfull : r.valuesTo k ++ (values l.payload).take (s.scanIdx.toNat + 1) = r.valuesTo (k + 1) := by
      rw [hend, StreamRequest.valuesTo_succ hl]
      exact congrArg _ (List.take_of_length_le (Nat.le_of_eq (values_length _)))
    rw [hfull] at hscanned
    by_cases hlast : k + 1 = r.data.length
    · have hseen : s.lastSeen = true := hs.lastSeen.trans (decide_eq_true hlast)
      have hstate : (s.scan s).state = .range := if_pos ⟨hend, hseen⟩
      have hissued : (s.scan s).rangeIssued = false := if_pos ⟨hend, hseen⟩
      rw [hlast, StreamRequest.valuesTo_all] at hscanned
      refine Or.inr ⟨_, _, .range (by rw [StreamRequest.lines_length]; omega) (List.ne_nil_of_length_pos (by omega))
        ha' (fun hfits => ?_) ⟨hstate, hscan, hstill, hlast ▸ hbuf, rfl, rfl, hcount⟩, hissued⟩
      exact scanned_all (s := s.scan s) (hscanned hfits) hfits.ne_nil
    · have hseen : s.lastSeen = false := hs.lastSeen.trans (decide_eq_false hlast)
      have hstate : (s.scan s).state = .rx :=
        (if_neg fun e => by rw [hseen] at e; cases e.2).trans hs.state
      exact Or.inl (.between (by omega) (by omega) (by omega) ha' hstate hscan hstill hcount hbuf
        fun hfits => ⟨(hscanned hfits).max, (hscanned hfits).min⟩)
  · have hscan : (s.scan s).scanning = true := (if_neg hend).trans hs.scanning
    have hstate : (s.scan s).state = .rx := (if_neg fun e => hend e.1).trans hs.state
    have hne : s.scanIdx.toNat ≠ 15 := fun e => hend (BitVec.eq_of_toNat_eq e)
    have hx := s.scanIdx.isLt
    have hidx : (s.scan s).scanIdx.toNat = s.scanIdx.toNat + 1 := toNat_succ (x := s.scanIdx) (by omega)
    rw [← hidx] at hscanned
    exact Or.inl (.scan hj hl ha' ⟨hstate, hscan, hstill, hs.hold, hs.lastSeen, hbuf,
      fun hfits => ⟨(hscanned hfits).max, (hscanned hfits).min⟩, hcount⟩)

/-- **One edge of the first pass.** -/
theorem normPos_rx (h : NormPos F r .first j s out) (o : Option SlotBeat) (t : Bool) (c : NormCores)
    (hoff : o = none ∨ o = r.beats[j]?) :
    NormRx F r (j + (if s.tready then o else none).toList.length) (s.edge o t c) := by
  cases h with
  | @between _ k _ h0 hj hk ha hs hc hq hz hb hx =>
      have hcount : (if s.flushCnt = 0 then 0 else s.flushCnt - 1) = 0 := if_pos hz
      rw [norm_between hq hs hc o t c]
      cases htaken : (if s.tready then o else none) with
      | none =>
          exact Or.inl (.between h0 hj hk ⟨ha.frameActive, ha.respSession, ha.reqBytes, ha.sawHeader⟩ hs hc
            ⟨hq.respValid, hq.outstanding, hq.packIdx⟩ hcount ⟨hb.nlines, hb.lines⟩
            fun hfits => ⟨(hx hfits).max, (hx hfits).min⟩)
      | some b =>
          cases hready : s.tready with
          | false => rw [hready] at htaken; cases htaken
          | true =>
              rw [hready, if_pos rfl] at htaken
              rw [htaken] at hoff
              have hbeat := (hoff.resolve_left (Option.some_ne_none b)).symm
              rw [hj] at hbeat
              obtain ⟨l, hl, rfl⟩ := StreamRequest.beats_data hbeat
              -- a line is taken only where there is room
              have hroom : s.nlines.toNat < 256 := by
                rw [Norm.tready, Bool.and_eq_true, Bool.and_eq_true, decide_eq_true_eq] at hready
                exact hready.1.2
              rw [hb.nlines] at hroom
              exact Or.inl (normPos_later hj hroom hl ha hs hq hz hb hx)
  | scan hj hl ha hs =>
      have hready : s.tready = false := by rw [Norm.tready, hs.state, hs.scanning]; rfl
      rw [norm_compare hs.still hs.state hs.scanning o t c, hready]
      exact normPos_scan hj hl ha hs

/-- An edge at which the range comes out of the subtractor. -/
theorem measure_some {s : Norm} {c : NormCores} (hv : c.subResValid = true) :
    s.measure c s = { s with
      rangeIssued := if s.subFire c then true else s.rangeIssued
      range := c.subResData
      state := .norm
      repLine := 0
      repIdx := 0
      repLoaded := false
      issuing := true
      packIdx := 0 } := by
  unfold Norm.measure
  rw [hv]
  rfl

theorem measure_none {s : Norm} {c : NormCores} (hv : c.subResValid = false) :
    s.measure c s = { s with rangeIssued := if s.subFire c then true else s.rangeIssued } := by
  unfold Norm.measure
  rw [hv]
  rfl

/-- The response accepted is the last one. -/
theorem accept_last {s r : Norm} (h : s.respLast = true) :
    s.accept r = { r with
      respValid := false
      state := .rx
      nlines := 0
      frameActive := false
      lastSeen := false
      maxKey := 0
      minKey := 0xFFFFFFFF } := by
  rw [Norm.accept, h]
  rfl

theorem accept_more {s r : Norm} (h : s.respLast = false) :
    s.accept r = { r with
      respValid := false
      repLine := s.repLine + 1
      repIdx := 0
      repLoaded := false
      issuing := true } := by
  rw [Norm.accept, h]
  rfl

/-- **One edge between the passes**: what comes out of the subtractor is the range. -/
theorem normPos_range (h : NormPos F r (.range lo hi) j s out) {c : NormCores}
    (hres : c.subResValid = true → c.subResData = F.sub hi lo) (o : Option SlotBeat) (t : Bool) :
    if c.subResValid then NormPos F r (.second lo hi [] 0) j (s.edge o t c) []
    else NormPos F r (.range lo hi) j (s.edge o t c) [] ∧
      (s.edge o t c).rangeIssued = (s.subFire c || s.rangeIssued) := by
  cases h with
  | range hj hd ha he hr =>
      have hcount : (if s.flushCnt = 0 then 0 else s.flushCnt - 1) = 0 := if_pos hr.flushed
      rw [norm_measure hr.still hr.state hr.scanning o t c]
      cases hv : c.subResValid with
      | false =>
          rw [if_neg Bool.false_ne_true, measure_none hv]
          refine ⟨.range hj hd ⟨ha.frameActive, ha.respSession, ha.reqBytes, ha.sawHeader⟩ he ⟨hr.state, hr.scanning,
            ⟨hr.still.respValid, hr.still.outstanding, hr.still.packIdx⟩, ⟨hr.buffered.nlines, hr.buffered.lines⟩,
            hr.minVal, hr.maxVal, hcount⟩, ?_⟩
          show (if s.subFire c then true else s.rangeIssued) = _
          cases s.subFire c <;> rfl
      | true =>
          obtain ⟨l, ls, hcons⟩ := List.exists_cons_of_ne_nil hd
          rw [if_pos rfl, measure_some hv]
          exact .load (k := 0) (l := l) hj (by rw [hcons]; rfl)
            ⟨ha.frameActive, ha.respSession, ha.reqBytes, ha.sawHeader⟩ he
            (normLoad_starts ⟨rfl, hr.scanning, ⟨hr.buffered.nlines, hr.buffered.lines⟩, hr.minVal, hres hv, rfl, hcount⟩
              rfl rfl rfl rfl hr.still.outstanding hr.still.respValid) rfl rfl rfl

/-- The response to a line is accepted. -/
theorem normPos_accept {l : SlotLine} (hj : j = r.lines.length) (hl : r.data[k]? = some l) (ha : NormActive r s)
    (he : Extremes r lo hi) (h : NormOffer F r lo hi k l.payload s)
    (hout : out ++ r.left (mapWords (F.scaled lo hi)) k = r.reply (mapWords (F.scaled lo hi))) :
    NormPos F r (.second lo hi (r.valuesTo (k + 1)) (16 * (k + 1))) j (s.accept (s.tick s)) (out ++ [s.response]) ∨
      (k + 1 = r.data.length ∧ NormDone F r lo hi j (s.accept (s.tick s)) (out ++ [s.response])) := by
  have hlt : k < r.data.length := (List.getElem?_eq_some_iff.mp hl).1
  have hcount : (if s.flushCnt = 0 then 0 else s.flushCnt - 1) = 0 := if_pos h.flushed
  have hresp : s.response =
      ⟨r.respBytes, r.first.session, decide (k + 1 = r.data.length), mapWords (F.scaled lo hi) l.payload⟩ := by
    rw [Norm.response, ha.reqBytes, ha.sawHeader, ha.respSession, h.respLast, h.acc]
    rfl
  rw [r.left_cons _ hl, ← hresp, List.append_cons] at hout
  by_cases hlast : k + 1 = r.data.length
  · rw [accept_last (h.respLast.trans (decide_eq_true hlast))]
    rw [r.left_nil _ (Nat.le_of_eq hlast.symm), List.append_nil] at hout
    exact Or.inr ⟨hlast, ⟨⟨rfl, h.scanning, rfl, rfl, rfl, h.outstanding, h.packIdx⟩, rfl, rfl⟩, hcount, hj, he, hout⟩
  · rw [accept_more (h.respLast.trans (decide_eq_false hlast))]
    have hnext : k + 1 < r.data.length := by omega
    have hrep : (s.repLine + 1).toNat = k + 1 := by
      have hwidth := s.nlines.isLt
      have hlines := h.buffered.nlines
      rw [toNat_succ (by rw [h.repLine]; omega), h.repLine]
    refine Or.inl (.load (k := k + 1) (l := r.data[k + 1]) hj (List.getElem?_eq_getElem hnext)
      ⟨ha.frameActive, ha.respSession, ha.reqBytes, ha.sawHeader⟩ he
      (normLoad_starts ⟨h.state, h.scanning, ⟨h.buffered.nlines, h.buffered.lines⟩, h.minVal, h.range, hrep, hcount⟩
        rfl rfl rfl h.packIdx h.outstanding rfl) (List.append_nil _).symm ?_ hout)
    show 16 * (k + 1) = 16 * (k + 1) + s.packIdx.toNat
    rw [h.packIdx]
    rfl

/-- Once all beats are taken, no other one is until the request is answered. -/
theorem normPos_full {stage : NormStage} (h : NormPos F r stage j s out) (hj : r.lines.length ≤ j) :
    s.tready = false := by
  have hlen : r.lines.length = r.headers + r.data.length := StreamRequest.lines_length
  cases h with
  | between _ hj' hk => omega
  | scan _ _ _ hs => rw [Norm.tready, hs.state, hs.scanning]; rfl
  | range _ _ _ _ hr => rw [Norm.tready, hr.state]; rfl
  | load _ _ _ _ hload => rw [Norm.tready, hload.state]; rfl
  | offer _ _ _ _ hoffer => rw [Norm.tready, hoffer.state]; rfl

variable {w : List (BitVec 32)} {n : Nat}

/-- The words issued are the first ones of the request, and what is sent begins the response. -/
theorem normPos_begun (h : NormPos F r (.second lo hi w n) j s out) :
    w <+: r.allValues ∧ out <+: r.reply (mapWords (F.scaled lo hi)) ∧ Extremes r lo hi ∧ r.data ≠ [] := by
  cases h with
  | load _ hl _ he _ hw _ hout =>
      exact ⟨hw ▸ StreamRequest.valuesTo_prefix hl _, ⟨_, hout⟩, he, List.ne_nil_of_mem (List.mem_of_getElem? hl)⟩
  | offer _ hl _ he _ hw _ hout =>
      exact ⟨hw ▸ StreamRequest.valuesTo_line hl, ⟨_, hout⟩, he, List.ne_nil_of_mem (List.mem_of_getElem? hl)⟩

/-- The words in flight are the results that are owed. -/
theorem normPos_owed (h : NormPos F r (.second lo hi w n) j s out) : n + s.outstanding.toNat = w.length := by
  cases h with
  | load _ hl _ _ hload hw hn =>
      have hlt := (List.getElem?_eq_some_iff.mp hl).1
      have hle := issuedWords_le s.issuing s.repIdx
      have hfill : s.outstanding.toNat + s.packIdx.toNat = issuedWords s.issuing s.repIdx := hload.words
      rw [hw, hn, List.length_append, StreamRequest.valuesTo_length (Nat.le_of_lt hlt), List.length_take,
        values_length, Nat.min_eq_left hle]
      omega
  | offer _ hl _ _ hoffer hw hn =>
      have hlt := (List.getElem?_eq_some_iff.mp hl).1
      rw [hw, hn, StreamRequest.valuesTo_length hlt, hoffer.outstanding]
      rfl

theorem normPos_replays (h : NormPos F r (.second lo hi w n) j s out) : ∃ k, NormReplays F r lo hi k s := by
  cases h with
  | load _ _ _ _ hload => exact ⟨_, hload.toNormReplays⟩
  | offer _ _ _ _ hoffer => exact ⟨_, hoffer.toNormReplays⟩

/-- The words of a line move on, a result that is packed being the one of the next word. -/
theorem normPos_load {l : SlotLine} (hj : j = r.lines.length) (hl : r.data[k]? = some l) (ha : NormActive r s)
    (he : Extremes r lo hi) (hload : NormLoad F r lo hi k l.payload s)
    (hw : w = r.valuesTo k ++ (values l.payload).take (issuedWords s.issuing s.repIdx))
    (hn : n = 16 * k + s.packIdx.toNat)
    (hout : out ++ r.left (mapWords (F.scaled lo hi)) k = r.reply (mapWords (F.scaled lo hi))) {c : NormCores}
    (hres : s.resultFire c = true → ∀ x, w[n]? = some x → c.divResData = F.scaled lo hi x) (o : Option SlotBeat)
    (t : Bool) :
    NormPos F r (.second lo hi (w ++ (s.issued c).toList) (n + (s.resultFire c).toNat)) j (s.edge o t c) out := by
  have hlt := (List.getElem?_eq_some_iff.mp hl).1
  have hresp : (s.respValid && t) = false := by rw [hload.respValid]; rfl
  obtain ⟨hstep, -⟩ := norm_step hload.state hload.scanning hresp o c
  have hdata := norm_data hload.state hload.scanning hresp o c
  have ha' : NormActive r (s.edge o t c) := ⟨hdata.frameActive.trans ha.frameActive,
    hdata.respSession.trans ha.respSession, hdata.reqBytes.trans ha.reqBytes, hdata.sawHeader.trans ha.sawHeader⟩
  have hword : s.resultFire c = true → c.divResData = F.scaled lo hi (word l.payload s.packIdx) := by
    intro hfire
    have howed := owed_pos hfire
    have hfill : s.outstanding.toNat + s.packIdx.toNat = issuedWords s.issuing s.repIdx := hload.words
    refine hres hfire _ ?_
    rw [hw, hn, List.getElem?_append_right (by rw [StreamRequest.valuesTo_length (Nat.le_of_lt hlt)]; omega),
      StreamRequest.valuesTo_length (Nat.le_of_lt hlt), Nat.add_sub_cancel_left,
      List.getElem?_take_of_lt (by omega), values_getElem?]
  have hissued : w ++ (s.issued c).toList = r.valuesTo k ++
      (values l.payload).take (issuedWords s.issuing s.repIdx + (s.subFire c).toNat) := by
    rw [hw, List.append_assoc, ← values_issue (subFire_issuing hload.state), normLoad_issued hload]
  rcases normLoad_edge hload hlt (hload.buffered.lines k l hlt hl) hword o t with
    ⟨hload', hpack⟩ | ⟨hoffer, hi, hsum⟩
  · refine .load hj hl ha' he hload' ?_ (by omega) hout
    rw [hissued, issuedWords_step hstep.words (subFire_issuing hload.state)]
  · refine .offer hj hl ha' he hoffer ?_ (by omega) hout
    rw [hissued, StreamRequest.valuesTo_succ hl, hi]
    refine congrArg _ (List.take_of_length_le ?_)
    rw [values_length]
    exact Nat.le_add_right 16 _

/-- **One edge of the second pass.** -/
theorem normPos_second (h : NormPos F r (.second lo hi w n) j s out) {c : NormCores}
    (hres : s.resultFire c = true → ∀ x, w[n]? = some x → c.divResData = F.scaled lo hi x) (o : Option SlotBeat)
    (t : Bool) :
    NormPos F r (.second lo hi (w ++ (s.issued c).toList) (n + (s.resultFire c).toNat)) j (s.edge o t c)
        (out ++ (if s.respValid && t then some s.response else none).toList) ∨
      (w ++ (s.issued c).toList = r.allValues ∧ n + (s.resultFire c).toNat = r.allValues.length ∧
        NormDone F r lo hi j (s.edge o t c)
          (out ++ (if s.respValid && t then some s.response else none).toList)) := by
  cases h with
  | load hj hl ha he hload hw hn hout =>
      have hnext := normPos_load hj hl ha he hload hw hn hout hres o t
      rw [hload.respValid]
      rw [← List.append_nil out] at hnext
      exact Or.inl hnext
  | @offer _ k _ l _ _ _ _ _ hj hl ha he hoffer hw hn hout =>
      have hlt := (List.getElem?_eq_some_iff.mp hl).1
      have hissued : s.issued c = none := by rw [Norm.issued, norm_unissued hoffer.state hoffer.issuing]; rfl
      have hunowed : s.resultFire c = false := by rw [Norm.resultFire, hoffer.outstanding]; exact Bool.and_false _
      rw [hissued, hunowed, hoffer.respValid, Option.toList_none, List.append_nil, Bool.toNat_false, Nat.add_zero,
        Bool.true_and, hw, hn]
      cases t with
      | false =>
          have hdata := norm_data hoffer.state hoffer.scanning (Bool.and_false s.respValid) o c
          rw [if_neg Bool.false_ne_true, Option.toList_none, List.append_nil]
          exact Or.inl (.offer hj hl ⟨hdata.frameActive.trans ha.frameActive,
            hdata.respSession.trans ha.respSession, hdata.reqBytes.trans ha.reqBytes,
            hdata.sawHeader.trans ha.sawHeader⟩ he (normOffer_edge hoffer o c) rfl rfl hout)
      | true =>
          rw [if_pos rfl, norm_accept hoffer.state hoffer.scanning hoffer.issuing hoffer.respValid hoffer.outstanding o c]
          refine (normPos_accept hj hl ha he hoffer hout).imp_right fun hend => ⟨?_, ?_, hend.2⟩
          · rw [hend.1, StreamRequest.valuesTo_all]
          · rw [← StreamRequest.valuesTo_all, ← hend.1, StreamRequest.valuesTo_length hlt]

end Request

end Frac.Slots
