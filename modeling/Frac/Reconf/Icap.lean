/-
  File:      Frac/Reconf/Icap.lean
  Subject:   The stream a `RECONF_ICAP` command sends to the configuration port: two nested
             counters, beats of eight words and words left, over any stall of AR, R and ICAP.

  * `Hist.bitstream`, `Hist.beatReads` -- the words and the reads the command asks for;
  * `IcapPhase` -- where the two counters stand in each state of the command
    (`icapPhase_since`);
  * `reconf_streams_bitstream` -- the words handshaken are exactly the bitstream, `tlast` on the
    last, read by exactly the reads it takes, each word stable while it waits.
-/
import Frac.Reconf.System

namespace Frac.Reconf

open Clocked

variable {slotCount : Nat}

/-! ## 1. What the command asks for -/

/-- `n / 4` for a bitstream of `n` bytes. -/
def Hist.wordCount (h : Hist) : Nat := (cmdSize h.cmd).toNat / 4

/-- Word `j` of the bitstream: the four bytes from `a + 4 j` on, lowest address lowest. -/
def Hist.word (h : Hist) (j : Nat) : BitVec 32 := h.mem0.beat (h.addr + BitVec.ofNat 33 (4 * j)) 4

/-- The first `k` words of the bitstream as the port sees them, `tlast` on the last of all. -/
def Hist.firstWords (h : Hist) (k : Nat) : List (BitVec 32 × Bool) :=
  (List.range k).map fun j => (h.word j, decide (j + 1 = h.wordCount))

/-- **The bitstream the command names.** -/
def Hist.bitstream (h : Hist) : List (BitVec 32 × Bool) := h.firstWords h.wordCount

/-- The first `b` beats are read at `a`, `a + 32`, `a + 64`, … -/
def Hist.beatReads (h : Hist) (b : Nat) : List (BitVec 33) :=
  (List.range b).map fun j => h.addr + BitVec.ofNat 33 (32 * j)

theorem firstWords_succ (h : Hist) (k : Nat) :
    h.firstWords (k + 1) = h.firstWords k ++ [(h.word k, decide (k + 1 = h.wordCount))] := by
  simp [Hist.firstWords, List.range_succ]

theorem beatReads_succ (h : Hist) (b : Nat) :
    h.beatReads (b + 1) = h.beatReads b ++ [h.addr + BitVec.ofNat 33 (32 * b)] := by
  simp [Hist.beatReads, List.range_succ]

theorem firstWords_isPrefix (h : Hist) {k m : Nat} (hk : k ≤ m) :
    h.firstWords k <+: h.firstWords m := by
  obtain ⟨d, rfl⟩ := Nat.exists_eq_add_of_le hk
  rw [Hist.firstWords, Hist.firstWords, List.range_add, List.map_append]
  exact List.prefix_append _ _

theorem addr_succ (a : BitVec 33) (b : Nat) :
    a + BitVec.ofNat 33 (32 * b) + addrIncr32 = a + BitVec.ofNat 33 (32 * (b + 1)) := by
  rw [Nat.mul_add, BitVec.ofNat_add, ← BitVec.add_assoc]
  rfl

/-- `select_icap_word` picks 32 bits at 32 times the index. -/
theorem selectIcapWord_eq (d : BitVec 256) (x : BitVec 3) :
    selectIcapWord d x = d.extractLsb' (8 * (4 * x.toNat)) (8 * 4) := by
  have hx : x.toNat < 8 := x.isLt
  unfold selectIcapWord
  rcases h : x.toNat with _ | _ | _ | _ | _ | _ | _ | _ | n
  case succ.succ.succ.succ.succ.succ.succ.succ => omega
  all_goals rfl

/-- Word `x` of the beat read for word `8 b` is word `8 b + x` of the bitstream. -/
theorem word_of_beat (h : Hist) (b x : Nat) (hx : x < 8) :
    (h.mem0.beat (h.addr + BitVec.ofNat 33 (32 * b)) 32).extractLsb' (8 * (4 * x)) (8 * 4) =
      h.word (8 * b + x) := by
  rw [Mem.extractLsb'_beat _ _ _ _ _ (by omega), Hist.word, BitVec.add_assoc, ← BitVec.ofNat_add,
    show 32 * b + 4 * x = 4 * (8 * b + x) by omega]

theorem executes_reconf_size {t : BitVec 512} (hx : Executes slotCount t opReconfIcap) :
    0 < (cmdSize t).toNat ∧ (cmdSize t).toNat % 4 = 0 := by
  constructor
  · have := hx.sizeNonzero
    simp only [cmdSizeNonzero, bne_iff_ne] at this
    exact Nat.pos_of_ne_zero fun e => this (BitVec.eq_of_toNat_eq (by simpa using e))
  · have := hx.reconfSize rfl
    simp only [cmdReconfSizeOk, beq_iff_eq] at this
    have := congrArg BitVec.toNat this
    simpa using this

/-! ## 2. The two counters, state by state -/

/-- `k` words sent and `b` beats read, the memory as it was. -/
structure IcapCount (h : Hist) (y : Sys slotCount) (k b : Nat) : Prop where
  words : h.words = h.firstWords k
  reads : h.reads = h.beatReads b
  mem : y.mem = h.mem0
  le : k ≤ h.wordCount
  left : y.ctrl.icapWordsRemaining.toNat = h.wordCount - k

/-- **Where a reconfiguration stands.** `b` beats are used up; in `stream` the next word is word
    `x` of the beat after them. -/
inductive IcapPhase (h : Hist) (y : Sys slotCount) : Prop where
  | addr (b : Nat) (hs : y.ctrl.state = .reconfAddr) (hc : IcapCount h y (8 * b) b)
      (hm : 8 * b < h.wordCount) (ha : y.ctrl.currentAddr = h.addr + BitVec.ofNat 33 (32 * b))
      (hp : y.ctrl.arvalid = true → y.ctrl.araddr = y.ctrl.currentAddr)
  | data (b : Nat) (hs : y.ctrl.state = .reconfData) (hc : IcapCount h y (8 * b) (b + 1))
      (hm : 8 * b < h.wordCount) (ha : y.ctrl.currentAddr = h.addr + BitVec.ofNat 33 (32 * b))
      (hp : y.ar = y.ctrl.currentAddr)
  | stream (b x : Nat) (hs : y.ctrl.state = .reconfStream)
      (hc : IcapCount h y (8 * b + x) (b + 1)) (hm : 8 * b + x < h.wordCount) (hx : x < 8)
      (ha : y.ctrl.currentAddr = h.addr + BitVec.ofNat 33 (32 * b))
      (hi : y.ctrl.icapWordIndex.toNat = x)
      (hd : y.ctrl.readData = h.mem0.beat (h.addr + BitVec.ofNat 33 (32 * b)) 32)
      (hw : y.ctrl.icapTdata = h.word (8 * b + x))
      (hl : y.ctrl.icapTlast = (y.ctrl.icapWordsRemaining == 1))
  | sent (hs : y.ctrl.state = .reconfWaitDone ∨ y.ctrl.state = .sendStatus ∨ y.ctrl.state = .idle)
      (hc : IcapCount h y h.wordCount ((h.wordCount + 7) / 8))

/-- The edge touches no port the stream is counted by: no word, no read, no write. -/
theorem icapCount_quiet {h : Hist} {y : Sys slotCount} {i : In} {k b : Nat}
    (hc : IcapCount h y k b) (hsg : Signals y.ctrl) (hw : y.ctrl.state ≠ .writeData)
    (hi : (y.ctrl.icapTvalid && i.icapTready) = false)
    (ha : (y.ctrl.arvalid && i.arready) = false)
    (hl : (y.clock i).ctrl.icapWordsRemaining = y.ctrl.icapWordsRemaining) :
    IcapCount (h.next y.ctrl i) (y.clock i) k b where
  words := (next_words_hold hi).trans hc.words
  reads := (next_reads_hold ha).trans hc.reads
  mem := (clock_mem_hold hsg hw i).trans hc.mem
  le := hc.le
  left := by rw [hl]; exact hc.left

/-- The edge handshakes read `b`. -/
theorem icapCount_read {h : Hist} {y : Sys slotCount} {i : In} {k b : Nat}
    (hc : IcapCount h y k b) (hsg : Signals y.ctrl) (hs : y.ctrl.state = .reconfAddr)
    (ha : (y.ctrl.arvalid && i.arready) = true)
    (hp : y.ctrl.araddr = h.addr + BitVec.ofNat 33 (32 * b))
    (hl : (y.clock i).ctrl.icapWordsRemaining = y.ctrl.icapWordsRemaining) :
    IcapCount (h.next y.ctrl i) (y.clock i) k (b + 1) where
  words := by
    have hv : y.ctrl.icapTvalid = false := by rw [hsg.icapTvalid, hs]; rfl
    rw [next_words_hold (by rw [hv]; rfl)]
    exact hc.words
  reads := by
    rw [next_reads_take ha, hc.reads, hp]
    exact (beatReads_succ h b).symm
  mem := (clock_mem_hold hsg (by rw [hs]; decide) i).trans hc.mem
  le := hc.le
  left := by rw [hl]; exact hc.left

/-- The edge handshakes word `k`. -/
theorem icapCount_word {h : Hist} {y : Sys slotCount} {i : In} {k b : Nat}
    (hc : IcapCount h y k b) (hsg : Signals y.ctrl) (hs : y.ctrl.state = .reconfStream)
    (hm : k < h.wordCount) (hi : (y.ctrl.icapTvalid && i.icapTready) = true)
    (hw : y.ctrl.icapTdata = h.word k)
    (ht : y.ctrl.icapTlast = (y.ctrl.icapWordsRemaining == 1))
    (hl : (y.clock i).ctrl.icapWordsRemaining = y.ctrl.icapWordsRemaining - 1) :
    IcapCount (h.next y.ctrl i) (y.clock i) (k + 1) b where
  words := by
    have hlast : y.ctrl.icapTlast = decide (k + 1 = h.wordCount) := by
      have := hc.left
      rw [ht, Bool.eq_iff_iff, beq_iff_eq, decide_eq_true_eq, ← BitVec.toNat_inj]
      show _ = 1 ↔ _
      omega
    rw [next_words_take hi, hc.words, hw, hlast]
    exact (firstWords_succ h k).symm
  reads := by
    have hv : y.ctrl.arvalid = false := hsg.arvalid (by rw [hs]; rfl)
    rw [next_reads_hold (by rw [hv]; rfl)]
    exact hc.reads
  mem := (clock_mem_hold hsg (by rw [hs]; decide) i).trans hc.mem
  le := hm
  left := by
    have hleft := hc.left
    have h1 : (1 : BitVec 64) ≤ y.ctrl.icapWordsRemaining := by
      show 1 ≤ y.ctrl.icapWordsRemaining.toNat
      omega
    rw [hl, BitVec.toNat_sub_of_le h1, hleft]
    show h.wordCount - k - 1 = h.wordCount - (k + 1)
    omega

theorem icapPhase_start {y : Sys slotCount} {i : In}
    (hx : Executes slotCount i.sAxisTdata opReconfIcap)
    (hc : (y.clock i).ctrl = startReconf (idleRegs (latch y.ctrl i) false) i.sAxisTdata)
    (hm : (y.clock i).mem = y.mem) :
    IcapPhase (Hist.start i.sAxisTdata y.mem) (y.clock i) := by
  obtain ⟨hpos, hmod⟩ := executes_reconf_size hx
  have hcount : (Hist.start i.sAxisTdata y.mem).wordCount = (cmdSize i.sAxisTdata).toNat / 4 := rfl
  refine .addr 0 (by rw [hc]; rfl) ⟨rfl, rfl, hm, Nat.zero_le _, ?_⟩ (by omega) ?_ ?_
  · rw [hc, hcount]
    simp [startReconf, Nat.shiftRight_eq_div_pow]
    omega
  · rw [hc]
    simp [startReconf, Hist.addr, Hist.start]
  · rw [hc]
    simp [startReconf, idleRegs]

/-! ## 3. One edge, phase by phase -/

section Step

variable {h : Hist} {y : Sys slotCount} {i : In} (hsg : Signals y.ctrl) (hrst : i.rst = false)
include hsg hrst

theorem icapPhase_addr {b : Nat} (hs : y.ctrl.state = .reconfAddr) (hc : IcapCount h y (8 * b) b)
    (hm : 8 * b < h.wordCount) (ha : y.ctrl.currentAddr = h.addr + BitVec.ofNat 33 (32 * b))
    (hp : y.ctrl.arvalid = true → y.ctrl.araddr = y.ctrl.currentAddr) :
    IcapPhase (h.next y.ctrl i) (y.clock i) := by
  have hi : (y.ctrl.icapTvalid && i.icapTready) = false := by rw [hsg.icapTvalid, hs]; rfl
  obtain ⟨s', hs', hmv⟩ := clock_move y hrst
  cases hmv
  case holdAr addr ho he =>
    have hadr : addr = y.ctrl.currentAddr := by simpa [hs] using ho
    refine .addr b (by rw [hs']; exact hs)
      (icapCount_quiet hc hsg (by rw [hs]; decide) hi he (by rw [hs']; rfl)) hm
      (by rw [hs']; exact ha) (fun _ => by rw [hs']; exact hadr)
  case takeAr addr next ho he =>
    obtain ⟨hadr, rfl⟩ : addr = y.ctrl.currentAddr ∧ next = .reconfData := by simpa [hs] using ho
    have hav : y.ctrl.araddr = y.ctrl.currentAddr := hp (Bool.and_eq_true_iff.mp he).1
    refine .data b (by rw [hs']) (icapCount_read hc hsg hs he (hav.trans ha) (by rw [hs']; rfl)) hm
      (by rw [hs']; exact ha) ?_
    rw [hs']
    show (if _ then _ else _) = y.ctrl.currentAddr
    rw [if_pos he, hav]
  all_goals simp_all

theorem icapPhase_data {b : Nat} (hok : ReadsOkay y i) (hs : y.ctrl.state = .reconfData)
    (hc : IcapCount h y (8 * b) (b + 1)) (hm : 8 * b < h.wordCount)
    (ha : y.ctrl.currentAddr = h.addr + BitVec.ofNat 33 (32 * b)) (hp : y.ar = y.ctrl.currentAddr) :
    IcapPhase (h.next y.ctrl i) (y.clock i) := by
  have hi : (y.ctrl.icapTvalid && i.icapTready) = false := by rw [hsg.icapTvalid, hs]; rfl
  have har : (y.ctrl.arvalid && i.arready) = false := by
    rw [hsg.arvalid (by rw [hs]; rfl)]; rfl
  have hw : y.ctrl.state ≠ .writeData := by rw [hs]; decide
  obtain ⟨s', hs', hmv⟩ := clock_move y hrst
  cases hmv
  case holdR ho he =>
    refine .data b (by rw [hs']; exact hs) (icapCount_quiet hc hsg hw hi har (by rw [hs']; rfl)) hm
      (by rw [hs']; exact ha) ?_
    rw [hs']
    show (if _ then _ else _) = y.ctrl.currentAddr
    rw [if_neg (by rw [har]; decide), hp]
  case errR ho he e hbad =>
    obtain ⟨-, h1, h2⟩ := hok he
    simp [h1, h2] at hbad
  case takeBeat ho he hr hl =>
    obtain ⟨hd, -, -⟩ := hok he
    rw [hp, ha, hc.mem] at hd
    refine .stream b 0 (by rw [hs']) (icapCount_quiet hc hsg hw hi har (by rw [hs']; rfl)) hm
      (by decide) (by rw [hs']; exact ha) (by rw [hs']; rfl) (by rw [hs']; exact hd) ?_
      (by rw [hs']; rfl)
    rw [hs']
    show i.rdata.extractLsb' 0 32 = h.word (8 * b + 0)
    rw [← word_of_beat h b 0 (by decide), hd]
  all_goals simp_all

theorem icapPhase_stream {b x : Nat} (hs : y.ctrl.state = .reconfStream)
    (hc : IcapCount h y (8 * b + x) (b + 1)) (hm : 8 * b + x < h.wordCount) (hx : x < 8)
    (ha : y.ctrl.currentAddr = h.addr + BitVec.ofNat 33 (32 * b))
    (hi : y.ctrl.icapWordIndex.toNat = x)
    (hd : y.ctrl.readData = h.mem0.beat (h.addr + BitVec.ofNat 33 (32 * b)) 32)
    (hw : y.ctrl.icapTdata = h.word (8 * b + x))
    (hl : y.ctrl.icapTlast = (y.ctrl.icapWordsRemaining == 1)) :
    IcapPhase (h.next y.ctrl i) (y.clock i) := by
  have hleft := hc.left
  obtain ⟨s', hs', hmv⟩ := clock_move y hrst
  cases hmv
  case holdWord ho he =>
    have har : (y.ctrl.arvalid && i.arready) = false := by
      rw [hsg.arvalid (by rw [hs]; rfl)]; rfl
    exact .stream b x (by rw [hs']; exact hs)
      (icapCount_quiet hc hsg (by rw [hs]; decide) he har (by rw [hs']; rfl)) hm hx
      (by rw [hs']; exact ha) (by rw [hs']; exact hi) (by rw [hs']; exact hd)
      (by rw [hs']; exact hw) (by rw [hs']; exact hl)
  case lastWord ho he h1 =>
    have hN : h.wordCount = 8 * b + x + 1 := by
      rw [h1] at hleft
      have : (1 : BitVec 64).toNat = 1 := rfl
      omega
    have hb : (h.wordCount + 7) / 8 = b + 1 := by omega
    have hc' := icapCount_word hc hsg hs hm he hw hl (by rw [hs', h1]; rfl)
    refine .sent (by rw [hs']; exact Or.inl rfl) ?_
    show IcapCount _ _ h.wordCount ((h.wordCount + 7) / 8)
    rw [hb, hN]
    exact hc'
  case beatEnd ho he h1 h7 =>
    have hx7 : x = 7 := by rw [← hi, h7]; rfl
    subst hx7
    have hc' := icapCount_word hc hsg hs hm he hw hl (by rw [hs'])
    have hmore : 8 * (b + 1) < h.wordCount := by
      by_contra hn
      exact h1 (BitVec.eq_of_toNat_eq (by rw [hleft]; show _ = 1; omega))
    refine .addr (b + 1) (by rw [hs']) (by rw [Nat.mul_add]; exact hc') hmore ?_ ?_
    · rw [hs']
      show y.ctrl.currentAddr + addrIncr32 = _
      rw [ha, addr_succ]
      rfl
    · intro hv
      rw [hs'] at hv
      have : y.ctrl.arvalid = false := hsg.arvalid (by rw [hs]; rfl)
      have hv' : y.ctrl.arvalid = true := hv
      rw [this] at hv'
      cases hv'
  case nextWord ho he h1 h7 =>
    have hx7 : x ≠ 7 := by
      intro e
      exact h7 (BitVec.eq_of_toNat_eq (by rw [hi, e]; rfl))
    have hc' := icapCount_word hc hsg hs hm he hw hl (by rw [hs'])
    have hmore : 8 * b + (x + 1) < h.wordCount := by
      by_contra hn
      exact h1 (BitVec.eq_of_toNat_eq (by rw [hleft]; show _ = 1; omega))
    have hi' : (y.ctrl.icapWordIndex + 1).toNat = x + 1 := by
      rw [BitVec.toNat_add, hi]
      exact Nat.mod_eq_of_lt (show x + 1 < 8 by omega)
    refine .stream b (x + 1) (by rw [hs']; exact hs) hc' hmore (by omega) (by rw [hs']; exact ha)
      (by rw [hs']; exact hi') (by rw [hs']; exact hd) ?_ ?_
    · rw [hs']
      show selectIcapWord y.ctrl.readData (y.ctrl.icapWordIndex + 1) = h.word (8 * b + (x + 1))
      rw [selectIcapWord_eq, hi', hd]
      exact word_of_beat h b (x + 1) (by omega)
    · rw [hs']
      exact words_two_beq y.ctrl.icapWordsRemaining
  all_goals simp_all

theorem icapPhase_sent
    (hs : y.ctrl.state = .reconfWaitDone ∨ y.ctrl.state = .sendStatus ∨ y.ctrl.state = .idle)
    (hc : IcapCount h y h.wordCount ((h.wordCount + 7) / 8)) (hacc : accepts y.ctrl i = false) :
    IcapPhase (h.next y.ctrl i) (y.clock i) := by
  have hi : (y.ctrl.icapTvalid && i.icapTready) = false := by
    rw [hsg.icapTvalid]
    rcases hs with e | e | e <;> rw [e] <;> rfl
  have har : (y.ctrl.arvalid && i.arready) = false := by
    rw [hsg.arvalid (by rcases hs with e | e | e <;> rw [e] <;> rfl)]; rfl
  have hw : y.ctrl.state ≠ .writeData := by rcases hs with e | e | e <;> rw [e] <;> decide
  have hquiet := fun hl => icapCount_quiet hc hsg hw hi har hl
  obtain ⟨s', hs', hmv⟩ := clock_move y hrst
  cases hmv
  case idleHold ho he => exact .sent (by rw [hs']; exact hs) (hquiet (by rw [hs']; rfl))
  case waitDone ho h1 h2 => exact .sent (by rw [hs']; exact hs) (hquiet (by rw [hs']; rfl))
  case finish ho e he =>
    exact .sent (by rw [hs']; exact Or.inr (Or.inl rfl)) (hquiet (by rw [hs']; rfl))
  case holdSend ho he => exact .sent (by rw [hs']; exact hs) (hquiet (by rw [hs']; rfl))
  case takeSend ho he =>
    exact .sent (by rw [hs']; exact Or.inr (Or.inr rfl)) (hquiet (by rw [hs']; rfl))
  all_goals rcases hs with e | e | e <;> simp_all [accepts]

/-- **One edge of a reconfiguration**, in whatever phase it stands. -/
theorem icapPhase_edge (hok : ReadsOkay y i) (ha : accepts y.ctrl i = false)
    (hp : IcapPhase h y) : IcapPhase (h.next y.ctrl i) (y.clock i) := by
  cases hp with
  | addr b hs hc hm ha hp => exact icapPhase_addr hsg hrst hs hc hm ha hp
  | data b hs hc hm ha hp => exact icapPhase_data hsg hrst hok hs hc hm ha hp
  | stream b x hs hc hm hx ha hi hd hw hl =>
      exact icapPhase_stream hsg hrst hs hc hm hx ha hi hd hw hl
  | sent hs hc => exact icapPhase_sent hsg hrst hs hc ha

end Step

/-- A reconfiguration that is accepted. -/
theorem icapPhase_accept {y : Sys slotCount} {i : In} (hsg : Signals y.ctrl) (hrst : i.rst = false)
    (ha : accepts y.ctrl i = true) (hx : Executes slotCount i.sAxisTdata opReconfIcap) :
    IcapPhase (Hist.start i.sAxisTdata y.mem) (y.clock i) := by
  have hidle := (accepts_iff.mp ha).1
  have hmem := clock_mem_hold hsg (by rw [hidle]; decide) i
  rcases clock_executes hrst ha hx with ⟨e, -⟩ | ⟨e, -⟩ | ⟨-, hc⟩
  · exact absurd e (by decide)
  · exact absurd e (by decide)
  · exact icapPhase_start hx hc hmem

theorem icapPhase_since {mem : Mem 33} {y0 y : Sys slotCount} {i0 : In}
    (hs : Since ReadsOkay mem y0 i0 y) {h : Hist} (hh : y.hist = some h)
    (hx : Executes slotCount h.cmd opReconfIcap) : IcapPhase h y := by
  refine hs.invariant (P := fun h y => Executes slotCount h.cmd opReconfIcap → IcapPhase h y)
    ?_ ?_ hh hx
  · exact fun _ _ hsg hrst ha hx => icapPhase_accept hsg hrst ha hx
  · exact fun _ _ _ hsg hok hrst ha ih hx => icapPhase_edge hsg hrst hok ha (ih hx)

/-! ## 4. The stream -/

/-- A word on the port waits unchanged until it is taken. -/
theorem icap_word_stable {y : Sys slotCount} {i : In} (hsg : Signals y.ctrl) (hrst : i.rst = false)
    (hv : y.ctrl.icapTvalid = true) (hn : i.icapTready = false) :
    (y.clock i).ctrl.icapTvalid = true ∧ (y.clock i).ctrl.icapTdata = y.ctrl.icapTdata ∧
      (y.clock i).ctrl.icapTlast = y.ctrl.icapTlast := by
  have hs : y.ctrl.state = .reconfStream := by
    rw [hsg.icapTvalid] at hv
    exact of_decide_eq_true hv
  obtain ⟨s', hs', hm⟩ := clock_move y hrst
  rw [hs']
  cases hm
  case holdWord ho he => exact ⟨hv, rfl, rfl⟩
  all_goals simp_all

/-- **`RECONF_ICAP` streams exactly the bitstream.** Whatever came before the command, from its
    acceptance on, with every read answered by the stored beat, OKAY and RLAST, and whatever stalls:
    the words handshaken so far are the first words of the bitstream; once the command is
    answered they are all of it, fetched by exactly `⌈n / 32⌉` reads at `a`, `a + 32`, …; and a
    word that is not taken stays on the port. -/
theorem reconf_streams_bitstream {mem : Mem 33} {y0 y : Sys slotCount} {i0 : In}
    (hs : Since ReadsOkay mem y0 i0 y) {h : Hist} (hh : y.hist = some h)
    (hx : Executes slotCount h.cmd opReconfIcap) :
    h.words <+: h.bitstream ∧
    (y.ctrl.state.busy = false →
      h.words = h.bitstream ∧ h.reads = h.beatReads (((cmdSize h.cmd).toNat + 31) / 32)) ∧
    ∀ i, i.rst = false → y.ctrl.icapTvalid = true → i.icapTready = false →
      (y.clock i).ctrl.icapTvalid = true ∧ (y.clock i).ctrl.icapTdata = y.ctrl.icapTdata ∧
        (y.clock i).ctrl.icapTlast = y.ctrl.icapTlast := by
  have hphase := icapPhase_since hs hh hx
  refine ⟨?_, fun hb => ?_, fun i hrst hv hn =>
    icap_word_stable (signals_reachable hs.reachable) hrst hv hn⟩
  · cases hphase with
    | addr b _ hc => rw [hc.words]; exact firstWords_isPrefix h hc.le
    | data b _ hc => rw [hc.words]; exact firstWords_isPrefix h hc.le
    | stream b x _ hc => rw [hc.words]; exact firstWords_isPrefix h hc.le
    | sent _ hc => rw [hc.words]; exact List.prefix_refl _
  · cases hphase with
    | addr b hs => rw [hs] at hb; cases hb
    | data b hs => rw [hs] at hb; cases hb
    | stream b x hs => rw [hs] at hb; cases hb
    | sent _ hc =>
        obtain ⟨hpos, hmod⟩ := executes_reconf_size hx
        have hceil : (h.wordCount + 7) / 8 = ((cmdSize h.cmd).toNat + 31) / 32 := by
          unfold Hist.wordCount
          omega
        exact ⟨hc.words, by rw [← hceil]; exact hc.reads⟩

/-- Two words from `0x4000`, the second one stalled for an edge. -/
def twoWordEdges : List In :=
  [In.low, { In.low with arready := true },
    { In.low with rvalid := true, rlast := true, rdata := countingMem.beat 0x4000 32 },
    { In.low with icapTready := true }, In.low, { In.low with icapTready := true },
    { In.low with icapPrDone := true }]

def twoWordSys : Sys 2 :=
  run Sys.clock (Sys.offered countingMem (commandLine opReconfIcap 1 0x4000 8)) twoWordEdges

theorem reconf_streams_two_words :
    ∃ h, twoWordSys.hist = some h ∧ h.words = [(0x03020100, false), (0x07060504, true)] ∧
      h.reads = [0x4000] := by
  have hs : Since ReadsOkay countingMem (run Sys.clock (Sys.init 2 countingMem) [In.low])
      (lineEdge (commandLine opReconfIcap 1 0x4000 8)) twoWordSys :=
    Since.of_run _ _ _ rfl (by decide +kernel) (by decide +kernel)
  have hh : twoWordSys.hist = some twoWordSys.current := hist_current (by decide +kernel)
  have hx : Executes 2 twoWordSys.current.cmd opReconfIcap := by
    constructor <;> decide +kernel
  obtain ⟨-, hdone, -⟩ := reconf_streams_bitstream hs hh hx
  obtain ⟨hw, hr⟩ := hdone (by decide +kernel)
  exact ⟨_, hh, hw.trans (by decide +kernel), hr.trans (by decide +kernel)⟩

end Frac.Reconf
