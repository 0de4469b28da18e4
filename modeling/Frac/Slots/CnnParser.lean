/-
  File:      Frac/Slots/CnnParser.lean
  Subject:   The parser in front of the CNN workload (`packet_parser_CNN.v`): it cuts a line into
             sixteen-bit words and assembles three of them at a time for the output FIFO.

  The line is shifted out of one register, and the loop ends when what is left says so: when it is zero,
  or when it is one above the next word -- the mark that `tlast` has become by then.

  * `CnnParser.edge` -- one clock edge; `CnnSys` -- with the FIFO, the lines accepted and the words
    written;
  * `parseWords` -- what the loop makes of a line (`cnn_parses` -- **in every run**);
  * `parse_all_iff` -- the lines of which it makes all 32 words;
  * `cnn_forwards` -- **every word is forwarded exactly if every line is such a line**.
-/
import Mathlib.Data.List.Basic
import Frac.Lib.Clocked
import Frac.Lib.Fifo

namespace Frac.Slots

open Clocked

/-! ## 1. The parser -/

/-- `rx_TDATA[447:0]` is the prefix of a configuration line. -/
def isConfigLine (d : BitVec 513) : Bool := d.extractLsb' 0 448 == BitVec.allOnes 448

/-- The registers of `packet_parser_CNN`. -/
structure CnnParser where
  parsing : BitVec 513
  rxTready : Bool
  assembledData : BitVec 48
  dataCount : BitVec 2
  assembledDataValid : Bool

namespace CnnParser

def init : CnnParser := ⟨0, true, 0, 0, false⟩

/-- `//is the last`. -/
def isLast (s : CnnParser) : Bool := s.parsing.extractLsb' 17 496 == 0 && s.parsing.getLsbD 16

/-- A word is cut off and assembled. -/
def parse (s : CnnParser) : CnnParser where
  parsing := if s.isLast then 0 else s.parsing >>> 16
  rxTready := false
  assembledData := s.parsing.extractLsb' 0 16 ++ s.assembledData.extractLsb' 16 32
  dataCount := if s.dataCount + 1 = 3 then 0 else s.dataCount + 1
  assembledDataValid := decide (s.dataCount + 1 = 3)

/-- The parser waits for a line: `rx` is `{tlast, payload}` where `rx_TVALID` is high. -/
def wait (s : CnnParser) (rx : Option (BitVec 513)) : CnnParser :=
  match rx with
  | none => { s with rxTready := true, assembledDataValid := false }
  | some d =>
    if isConfigLine d || !s.rxTready then { s with rxTready := true, assembledDataValid := false }
    else { s with parsing := d, rxTready := false, assembledDataValid := false }

/-- One clock edge; the module has no reset. -/
def edge (s : CnnParser) (rx : Option (BitVec 513)) : CnnParser :=
  if s.parsing ≠ 0 then s.parse else s.wait rx

end CnnParser

/-- The parser with its output FIFO, the lines accepted and the words written so far. -/
structure CnnSys (depth : Nat) where
  parser : CnnParser
  fifo : Fifo depth (BitVec 48)
  accepted : List (BitVec 513)
  written : List (BitVec 48)

/-- The input pins at one clock edge. -/
structure CnnIn where
  rx : Option (BitVec 513)
  txTready : Bool

variable {depth : Nat}

namespace CnnSys

def init (depth : Nat) : CnnSys depth := ⟨.init, .empty, [], []⟩

/-- What the output FIFO is offered. -/
def offered (y : CnnSys depth) : Option (BitVec 48) :=
  if y.parser.assembledDataValid then some y.parser.assembledData else none

def clock (y : CnnSys depth) (i : CnnIn) : CnnSys depth where
  parser := y.parser.edge i.rx
  fifo := y.fifo.edge y.offered i.txTready
  accepted := y.accepted ++ (if y.parser.rxTready then i.rx else none).toList
  written := y.written ++ (y.fifo.written y.offered).toList

/-- The output FIFO does not overflow at the edge. -/
def Fits (y : CnnSys depth) (_ : CnnIn) : Prop := y.offered.isSome = true → y.fifo.tready = true

instance (y : CnnSys depth) (i : CnnIn) : Decidable (y.Fits i) := inferInstanceAs (Decidable (_ → _))

end CnnSys

/-! ## 2. What is asked for -/

/-- The 32 words of a line, lowest first. -/
def cnnWords (d : BitVec 513) : List (BitVec 16) :=
  (List.range 32).map fun k => d.extractLsb' (16 * k) 16

/-- The three words of a word of the FIFO, lowest first. -/
def cnnGroup (g : BitVec 48) : List (BitVec 16) :=
  [g.extractLsb' 0 16, g.extractLsb' 16 16, g.extractLsb' 32 16]

/-- The words held back: of a group that is not complete. -/
def CnnParser.held (s : CnnParser) : List (BitVec 16) :=
  (cnnGroup s.assembledData).drop (3 - s.dataCount.toNat)

/-- The data lines among the lines accepted. -/
def CnnSys.dataLines (y : CnnSys depth) : List (BitVec 513) := y.accepted.filter (!isConfigLine ·)

/-- **Every word of every data line is forwarded**, in order, in groups of three; the words of a group
    that is not complete are held back. -/
def CnnSys.Forwards (y : CnnSys depth) : Prop :=
  y.written.flatMap cnnGroup ++ y.parser.held = y.dataLines.flatMap cnnWords

instance (y : CnnSys depth) : Decidable y.Forwards := inferInstanceAs (Decidable (_ = _))

/-! ## 3. What the loop makes of a line -/

/-- The words the loop cuts off a register of this value, until it ends. -/
def parseWords (p : Nat) : List (BitVec 16) :=
  if p = 0 then []
  else if p / 65536 = 1 then [BitVec.ofNat 16 p]
  else BitVec.ofNat 16 p :: parseWords (p / 65536)
termination_by p
decreasing_by omega

theorem parseWords_zero : parseWords 0 = [] := by
  rw [parseWords, if_pos rfl]

theorem parseWords_of_zero {p : BitVec 513} (h : p = 0) : parseWords p.toNat = [] := by
  rw [h, BitVec.ofNat_eq_ofNat, BitVec.toNat_zero, parseWords_zero]

/-- The loop ends after at most as many words as there are digits; a leading one is no digit. -/
theorem length_parseWords {m p : Nat} (hm : 0 < m) (h : p < 2 * 65536 ^ m) :
    (parseWords p).length ≤ m := by
  induction m, hm using Nat.le_induction generalizing p with
  | base =>
      rw [parseWords]
      split_ifs with h0 h1
      · exact Nat.zero_le _
      · exact Nat.le_refl _
      · rw [show p / 65536 = 0 by omega, parseWords_zero]
        exact Nat.le_refl _
  | succ m hm ih =>
      rw [parseWords]
      split_ifs with h0 h1
      · exact Nat.zero_le _
      · exact Nat.succ_le_succ (Nat.zero_le _)
      · rw [Nat.pow_succ] at h
        exact Nat.succ_le_succ (ih (by omega))

/-- A register that has the mark, or two at least in its top word, is cut into all of its words. -/
theorem parseWords_all {m p : Nat} (hlow : 2 * 65536 ^ m ≤ p) (hhigh : p < 2 * 65536 ^ (m + 1)) :
    parseWords p = (List.range (m + 1)).map fun k => BitVec.ofNat 16 (p / 65536 ^ k) := by
  induction m generalizing p with
  | zero =>
      rw [parseWords, if_neg (by omega)]
      split_ifs with h1
      · simp
      · rw [show p / 65536 = 0 by omega, parseWords_zero]
        simp
  | succ m ih =>
      rw [Nat.pow_succ] at hlow hhigh
      have hpos : 0 < 65536 ^ m := Nat.pow_pos (by decide)
      rw [parseWords, if_neg (by omega), if_neg (by omega),
        ih (by omega) (by rw [Nat.pow_succ] at hhigh ⊢; omega), List.range_succ_eq_map (n := m + 1),
        List.map_cons, List.map_map, Nat.pow_zero, Nat.div_one]
      congr 1
      refine List.map_congr_left fun k _ => ?_
      show _ = BitVec.ofNat 16 (p / 65536 ^ (k + 1))
      rw [Nat.div_div_eq_div_mul, Nat.pow_succ, Nat.mul_comm]

/-- **The lines that are forwarded in full**: with `tlast`, or a top word that is neither zero nor
    one. -/
def Unmistakable (d : BitVec 513) : Prop :=
  d.getLsbD 512 = true ∨ d.extractLsb' 496 16 ≠ 0 ∧ d.extractLsb' 496 16 ≠ 1

instance (d : BitVec 513) : Decidable (Unmistakable d) := inferInstanceAs (Decidable (_ ∨ _))

theorem unmistakable_iff (d : BitVec 513) : Unmistakable d ↔ 2 * 65536 ^ 31 ≤ d.toNat := by
  have hlt := d.isLt
  have htop : d.getLsbD 512 = true ↔ 65536 ^ 32 ≤ d.toNat := by
    rw [BitVec.getLsbD, Nat.testBit_eq_decide_div_mod_eq, decide_eq_true_eq]
    omega
  have hword : (d.extractLsb' 496 16).toNat = d.toNat / 2 ^ 496 % 2 ^ 16 := by
    rw [BitVec.extractLsb'_toNat, Nat.shiftRight_eq_div_pow]
  rw [Unmistakable, htop, Ne, Ne, ← BitVec.toNat_inj, ← BitVec.toNat_inj, hword]
  show _ ∨ ¬ _ = 0 ∧ ¬ _ = 1 ↔ _
  omega

/-- **The loop makes all 32 words exactly of the lines with `tlast` or a top word above one.** -/
theorem parse_all_iff (d : BitVec 513) : parseWords d.toNat = cnnWords d ↔ Unmistakable d := by
  have hlt := d.isLt
  rw [unmistakable_iff]
  constructor
  · intro h
    have hlen := congrArg List.length h
    rw [cnnWords, List.length_map, List.length_range] at hlen
    refine Nat.le_of_not_lt fun hsmall => ?_
    have := length_parseWords (m := 31) (by decide) hsmall
    omega
  · intro h
    rw [parseWords_all h (by omega), cnnWords]
    refine List.map_congr_left fun k _ => BitVec.eq_of_toNat_eq ?_
    rw [BitVec.toNat_ofNat, BitVec.extractLsb'_toNat, Nat.shiftRight_eq_div_pow, Nat.pow_mul]

theorem length_parse_le (d : BitVec 513) : (parseWords d.toNat).length ≤ 32 := by
  have hlt := d.isLt
  exact length_parseWords (by decide) (by omega)

/-- The words of lines, all of them exactly if all of each. -/
theorem flatMap_parse_iff (ds : List (BitVec 513)) :
    ds.flatMap (parseWords ·.toNat) = ds.flatMap cnnWords ↔ ∀ d ∈ ds, Unmistakable d := by
  have hwords : ∀ d, (cnnWords d).length = 32 := fun d => by
    rw [cnnWords, List.length_map, List.length_range]
  have hshort : ∀ ds : List (BitVec 513),
      (ds.flatMap (parseWords ·.toNat)).length ≤ (ds.flatMap cnnWords).length := by
    intro ds
    induction ds with
    | nil => exact Nat.le_refl _
    | cons d ds ih =>
        have hle := length_parse_le d
        rw [List.flatMap_cons, List.flatMap_cons, List.length_append, List.length_append, hwords]
        omega
  constructor
  · intro h
    induction ds with
    | nil => exact fun d hd => absurd hd List.not_mem_nil
    | cons d ds ih =>
        rw [List.flatMap_cons, List.flatMap_cons] at h
        have hlen := congrArg List.length h
        rw [List.length_append, List.length_append, hwords] at hlen
        have h1 := length_parse_le d
        have h2 := hshort ds
        obtain ⟨hd, hds⟩ := List.append_inj h (by rw [hwords]; omega)
        exact List.forall_mem_cons.mpr ⟨(parse_all_iff d).mp hd, ih hds⟩
  · exact fun h => List.flatMap_congr fun d hd => (parse_all_iff d).mpr (h d hd)

/-! ## 4. The run -/

/-- The words that are in the assembly register: a complete group on its way to the FIFO, or the words
    held back. -/
def CnnParser.inHand (s : CnnParser) : List (BitVec 16) :=
  if s.assembledDataValid then cnnGroup s.assembledData else s.held

/-- **What has become of the lines accepted**: their words are written, in hand, or still in the
    parsing register. -/
structure CnnParses (y : CnnSys depth) : Prop where
  words : y.written.flatMap cnnGroup ++ y.parser.inHand ++ parseWords y.parser.parsing.toNat =
    y.dataLines.flatMap (parseWords ·.toNat)
  count : y.parser.dataCount.toNat < 3
  valid : y.parser.assembledDataValid = true → y.parser.dataCount = 0
  ready : y.parser.rxTready = true → y.parser.parsing = 0

theorem cnnGroup_shift (w : BitVec 16) (g : BitVec 48) :
    cnnGroup (w ++ g.extractLsb' 16 32) = (cnnGroup g).drop 1 ++ [w] := by
  have hpart : ∀ k, k < 2 → (w ++ g.extractLsb' 16 32).extractLsb' (16 * k) 16 =
      g.extractLsb' (16 * (k + 1)) 16 := by
    intro k hk
    apply BitVec.eq_of_getLsbD_eq
    intro t ht
    rw [BitVec.getLsbD_extractLsb', BitVec.getLsbD_extractLsb', BitVec.getLsbD_append,
      if_pos (by omega), BitVec.getLsbD_extractLsb', decide_eq_true ht, decide_eq_true (by omega),
      Bool.true_and, Bool.true_and, Bool.true_and]
    congr 1
    omega
  have htop : (w ++ g.extractLsb' 16 32).extractLsb' 32 16 = w := by
    apply BitVec.eq_of_getLsbD_eq
    intro t ht
    rw [BitVec.getLsbD_extractLsb', BitVec.getLsbD_append, if_neg (by omega), decide_eq_true ht,
      Bool.true_and, Nat.add_sub_cancel_left]
  show [_, _, _] = [_, _, _]
  rw [htop, show (0 : Nat) = 16 * 0 from rfl, hpart 0 (by decide), hpart 1 (by decide)]

/-- The register of the loop, as a number. -/
theorem parse_parsing (s : CnnParser) (h : s.parsing ≠ 0) :
    parseWords s.parsing.toNat =
      s.parsing.extractLsb' 0 16 :: parseWords s.parse.parsing.toNat := by
  have hlt := s.parsing.isLt
  have hne : s.parsing.toNat ≠ 0 := fun e => h (BitVec.eq_of_toNat_eq (by
    rw [e, BitVec.ofNat_eq_ofNat, BitVec.toNat_zero]))
  have hword : s.parsing.extractLsb' 0 16 = BitVec.ofNat 16 s.parsing.toNat := by
    apply BitVec.eq_of_toNat_eq
    rw [BitVec.extractLsb'_toNat, BitVec.toNat_ofNat, Nat.shiftRight_zero]
  have hlast : s.isLast = true ↔ s.parsing.toNat / 65536 = 1 := by
    rw [CnnParser.isLast, Bool.and_eq_true, beq_iff_eq, ← BitVec.toNat_inj, BitVec.extractLsb'_toNat,
      BitVec.ofNat_eq_ofNat, BitVec.toNat_zero, Nat.shiftRight_eq_div_pow, BitVec.getLsbD,
      Nat.testBit_eq_decide_div_mod_eq, decide_eq_true_eq]
    omega
  rw [parseWords, if_neg hne, hword]
  by_cases hend : s.isLast = true
  · rw [if_pos (hlast.mp hend), CnnParser.parse, if_pos hend]
    exact congrArg _ (parseWords_of_zero rfl).symm
  · rw [if_neg (mt hlast.mpr hend), CnnParser.parse, if_neg hend, BitVec.toNat_ushiftRight,
      Nat.shiftRight_eq_div_pow]

/-- The words in hand after one more. -/
theorem inHand_parse {s : CnnParser} (hc : s.dataCount.toNat < 3) :
    s.parse.inHand = s.held ++ [s.parsing.extractLsb' 0 16] ∧ s.parse.dataCount.toNat < 3 ∧
      (s.parse.assembledDataValid = true → s.parse.dataCount = 0) := by
  have hgroup : cnnGroup s.parse.assembledData =
      (cnnGroup s.assembledData).drop 1 ++ [s.parsing.extractLsb' 0 16] := cnnGroup_shift _ _
  have hsucc : (s.dataCount + 1).toNat = s.dataCount.toNat + 1 := by
    rw [BitVec.toNat_add]
    exact Nat.mod_eq_of_lt (show s.dataCount.toNat + 1 < 4 by omega)
  have hlen : (cnnGroup s.assembledData).length = 3 := rfl
  by_cases hfull : s.dataCount + 1 = 3
  · have h2 : s.dataCount.toNat = 2 := by
      rw [hfull] at hsucc
      have h3 : (3 : BitVec 2).toNat = 3 := rfl
      omega
    have hvalid : s.parse.assembledDataValid = true := decide_eq_true hfull
    have hzero : s.parse.dataCount = 0 := if_pos hfull
    refine ⟨?_, by rw [hzero]; decide, fun _ => hzero⟩
    rw [CnnParser.inHand, hvalid, if_pos rfl, hgroup, CnnParser.held, h2]
  · have hvalid : s.parse.assembledDataValid = false := decide_eq_false hfull
    have hnext : s.parse.dataCount = s.dataCount + 1 := if_neg hfull
    have hlt : s.dataCount.toNat < 2 := by
      refine Nat.lt_of_le_of_ne (Nat.le_of_lt_succ hc) fun e => hfull (BitVec.eq_of_toNat_eq ?_)
      rw [hsucc, e]
      rfl
    refine ⟨?_, by rw [hnext, hsucc]; omega, fun e => by rw [hvalid] at e; cases e⟩
    rw [CnnParser.inHand, hvalid, if_neg Bool.false_ne_true, CnnParser.held, CnnParser.held, hgroup, hnext,
      hsucc, List.drop_append_of_le_length (by rw [List.length_drop, hlen]; omega), List.drop_drop]
    congr 2
    omega

/-- A group that is complete is written, and nothing is held back beside it. -/
theorem inHand_written {y : CnnSys depth} (h : CnnParses y) {i : CnnIn} (hfit : y.Fits i) :
    y.written.flatMap cnnGroup ++ y.parser.inHand =
      (y.clock i).written.flatMap cnnGroup ++ y.parser.held := by
  have hwritten : (y.clock i).written = y.written ++ y.offered.toList := by
    show y.written ++ (y.fifo.written y.offered).toList = _
    rw [Fifo.written_fits hfit]
  rw [hwritten, List.flatMap_append, List.append_assoc, CnnParser.inHand, CnnSys.offered]
  cases hv : y.parser.assembledDataValid with
  | false => rfl
  | true =>
      have hheld : y.parser.held = [] := by
        rw [CnnParser.held, h.valid hv]
        rfl
      rw [hheld]
      simp

theorem parses_edge {y : CnnSys depth} (h : CnnParses y) (i : CnnIn) (hfit : y.Fits i) :
    CnnParses (y.clock i) := by
  have hw := h.words
  rw [inHand_written h hfit] at hw
  have haccepted : (y.clock i).dataLines =
      y.dataLines ++ ((if y.parser.rxTready then i.rx else none).toList.filter (!isConfigLine ·)) :=
    List.filter_append ..
  by_cases hp : y.parser.parsing = 0
  · -- the parser waits
    have hedge : (y.clock i).parser = y.parser.wait i.rx := if_neg (not_not.mpr hp)
    rw [parseWords_of_zero hp, List.append_nil] at hw
    have hstay : ((y.clock i).parser = { y.parser with rxTready := true, assembledDataValid := false }) →
        (y.clock i).dataLines = y.dataLines → CnnParses (y.clock i) := by
      intro hs hd
      refine ⟨?_, by rw [hs]; exact h.count, fun e => ?_, fun _ => by rw [hs]; exact hp⟩
      · have hzero : parseWords (y.clock i).parser.parsing.toNat = [] :=
          parseWords_of_zero (by rw [hs]; exact hp)
        rw [hzero, hs, hd, ← hw, List.append_nil]
        rfl
      · rw [hs] at e
        cases e
    cases hrx : i.rx with
    | none =>
        refine hstay (by rw [hedge, hrx]; rfl) ?_
        rw [haccepted, hrx, ite_self]
        exact List.append_nil _
    | some d =>
        cases hskip : isConfigLine d || !y.parser.rxTready with
        | true =>
            refine hstay (by rw [hedge, hrx, CnnParser.wait, hskip]; rfl) ?_
            rw [haccepted, hrx]
            rcases Bool.or_eq_true_iff.mp hskip with hc | hr
            · cases y.parser.rxTready <;> simp [hc]
            · rw [Bool.not_eq_true'] at hr
              rw [hr]
              exact List.append_nil _
        | false =>
            -- a data line goes into the register
            rw [Bool.or_eq_false_iff, Bool.not_eq_false'] at hskip
            have hs : (y.clock i).parser =
                { y.parser with parsing := d, rxTready := false, assembledDataValid := false } := by
              rw [hedge, hrx, CnnParser.wait, hskip.1, hskip.2]
              rfl
            have hd : (y.clock i).dataLines = y.dataLines ++ [d] := by
              rw [haccepted, hrx, hskip.2]
              simp [hskip.1]
            refine ⟨?_, by rw [hs]; exact h.count, fun e => ?_, fun e => ?_⟩
            · rw [hs, hd, List.flatMap_append, ← hw, List.flatMap_singleton]
              rfl
            · rw [hs] at e
              cases e
            · rw [hs] at e
              cases e
  · -- a word is cut off
    have hedge : (y.clock i).parser = y.parser.parse := if_pos hp
    obtain ⟨hhand, hcount, hvalid⟩ := inHand_parse h.count (s := y.parser)
    have hready : y.parser.rxTready = false :=
      Bool.eq_false_iff.mpr fun e => hp (h.ready e)
    have hd : (y.clock i).dataLines = y.dataLines := by
      rw [haccepted, hready]
      exact List.append_nil _
    refine ⟨?_, by rw [hedge]; exact hcount, by rw [hedge]; exact hvalid, fun e => ?_⟩
    · rw [hd, ← hw, hedge, hhand, parse_parsing y.parser hp]
      simp
    · rw [hedge] at e
      cases e

theorem parses_init : CnnParses (CnnSys.init depth) where
  words := by
    rw [parseWords_of_zero (show (CnnSys.init depth).parser.parsing = 0 from rfl)]
    rfl
  count := show (0 : BitVec 2).toNat < 3 by decide
  valid e := by cases e
  ready _ := rfl

/-- **In every run the words of the lines accepted, as the loop makes them, are written, in hand or
    still to be cut off.** -/
theorem cnn_parses (is : List CnnIn) (h : Meets CnnSys.clock CnnSys.Fits (CnnSys.init depth) is) :
    CnnParses (run CnnSys.clock (CnnSys.init depth) is) :=
  run_meets (P := CnnParses) (fun _ i h hfit => parses_edge h i hfit) parses_init is h

/-! ## 5. At rest -/

/-- The edges a parser that is offered nothing still needs. -/
def CnnParser.rank (s : CnnParser) : Nat :=
  if s.parsing ≠ 0 then (parseWords s.parsing.toNat).length + 1
  else if s.assembledDataValid then 1 else 0

theorem cnn_rank_edge (s : CnnParser) : (s.edge none).rank ≤ s.rank - 1 := by
  unfold CnnParser.edge
  by_cases hp : s.parsing = 0
  · rw [if_neg (not_not.mpr hp)]
    unfold CnnParser.rank CnnParser.wait
    simp only [hp, ne_eq, not_true, if_false, Bool.false_eq_true]
    exact Nat.zero_le _
  · have hrank : s.rank = (parseWords s.parse.parsing.toNat).length + 2 := by
      rw [CnnParser.rank, if_pos hp, parse_parsing s hp, List.length_cons]
    rw [if_pos hp, hrank, CnnParser.rank]
    split_ifs <;> omega

theorem cnn_rank_le (s : CnnParser) : s.rank ≤ 33 := by
  have := length_parse_le s.parsing
  unfold CnnParser.rank
  split_ifs <;> omega

/-- **The parser forwards every word exactly if no line can be mistaken for a shorter one**: after any
    lines with any gaps, and 33 edges without a line, over an output FIFO that does not overflow. -/
theorem cnn_forwards (is js : List CnnIn)
    (hfit : Meets CnnSys.clock CnnSys.Fits (CnnSys.init depth) (is ++ js)) (hquiet : ∀ j ∈ js, j.rx = none)
    (henough : 33 ≤ js.length) :
    (run CnnSys.clock (CnnSys.init depth) (is ++ js)).Forwards ↔
      ∀ d ∈ (run CnnSys.clock (CnnSys.init depth) (is ++ js)).dataLines, Unmistakable d := by
  have hparses := cnn_parses _ hfit
  have hrank : (run CnnSys.clock (CnnSys.init depth) (is ++ js)).parser.rank ≤ 0 := by
    rw [run_append]
    have hcount := run_countdown (w := fun _ => true) (Q := fun j : CnnIn => j.rx = none)
      (P := fun m (y : CnnSys depth) => y.parser.rank ≤ m) (m := 33)
      (fun m y j hm hj => by
        rw [if_pos rfl, show (y.clock j).parser = y.parser.edge j.rx from rfl, hj]
        have := cnn_rank_edge y.parser
        omega)
      (cnn_rank_le (run CnnSys.clock (CnnSys.init depth) is).parser) js hquiet
    rw [List.countP_true] at hcount
    omega
  generalize run CnnSys.clock (CnnSys.init depth) (is ++ js) = y at hparses hrank ⊢
  have hrest : y.parser.parsing = 0 ∧ ¬ y.parser.assembledDataValid = true := by
    unfold CnnParser.rank at hrank
    split_ifs at hrank with hp hv
    · omega
    · omega
    · exact ⟨not_not.mp hp, hv⟩
  have hw := hparses.words
  rw [parseWords_of_zero hrest.1, List.append_nil, CnnParser.inHand, if_neg hrest.2] at hw
  rw [CnnSys.Forwards, hw]
  exact flatMap_parse_iff _

/-- Edges without a line. -/
def cnnQuiet : List CnnIn := List.replicate 33 ⟨none, true⟩

/-- The parser at rest after one line. -/
def cnnOneLine (d : BitVec 513) : CnnSys 16 :=
  run CnnSys.clock (CnnSys.init 16) ([⟨some d, true⟩] ++ cnnQuiet)

/-- A line of zeros with `tlast` is forwarded in full. -/
theorem cnn_forwards_last :
    (cnnOneLine (BitVec.twoPow 513 512)).Forwards ∧ (cnnOneLine (BitVec.twoPow 513 512)).written.length = 10 := by
  have h := @cnn_forwards 16 [⟨some (BitVec.twoPow 513 512), true⟩] cnnQuiet
    (by decide +kernel) (by decide +kernel) (by decide +kernel)
  have hlines : (cnnOneLine (BitVec.twoPow 513 512)).dataLines = [BitVec.twoPow 513 512] := by decide +kernel
  refine ⟨h.mpr fun d hd => ?_, by decide +kernel⟩
  rw [show d = _ from List.mem_singleton.mp (hlines ▸ hd)]
  decide +kernel

/-- **A line of zeros without `tlast` is dropped.** -/
theorem cnn_drops_zeros :
    ¬ (cnnOneLine 0).Forwards ∧ (cnnOneLine 0).dataLines = [0] ∧ (cnnOneLine 0).written = [] := by
  decide +kernel

end Frac.Slots
