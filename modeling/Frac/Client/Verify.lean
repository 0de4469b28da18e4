/-
  File:      Frac/Client/Verify.lean
  Subject:   The `-verify` pass of `sw/pr`: the staged image is read back and compared with the file,
             over a memory that may fail any read.

  A response of READ_HBM carries the bytes and no status, so `readHBM` takes the status line of a read
  that has failed for the bytes stored.

  * `Pr.verify` -- the pass, with what it ends in;
  * `LooksFailed` -- a chunk of the file that reads like the status of a failed read;
  * `verify_staged_iff` -- **a clean pass proves the image staged, for every memory, exactly when no
    chunk of the file looks failed**: `readChunksBy_stored` is the one half, `readChunksBy_fooled` the
    other.
-/
import Frac.Client.Upload

namespace Frac.Client

open Bits Clocked PktLogic Reassembly Reconf

variable {n slotCount : Nat}

/-! ## 1. The pass -/

namespace Pr

section Pass

variable [FifoKind] (f : Feed n slotCount → FeedIn → FeedIn)

/-- The loop of `readHBM` over another memory. -/
def readChunksBy (hbmAddr size : Nat) :
    List Nat → List (BitVec 8) → Conn n slotCount → (List (BitVec 8) × Option Error) × Conn n slotCount
  | [], out, c => ((out, none), c)
  | offset :: rest, out, c =>
    let want := min (size - offset) maxReadBytes
    let req := buildReconfRequest opReadHBM 0 (hbmAddr + offset) want []
    match c.sendBy f s!"READ_HBM[{offset / maxReadBytes}]" req with
    | (.error e, c') => ((out, some e), c')
    | (.ok response, c') => readChunksBy hbmAddr size rest (out ++ response.take want) c'

/-- `readHBM` over another memory. -/
def readHBMBy (c : Conn n slotCount) (hbmAddr size : Nat) :
    (List (BitVec 8) × Option Error) × Conn n slotCount :=
  readChunksBy f hbmAddr size
    ((List.range ((size + (maxReadBytes - 1)) / maxReadBytes)).map (maxReadBytes * ·)) [] c

/-- What the pass ends in: the error of the read, `verify: read %dB of %dB`, `VERIFY FAILED: first
    mismatch at byte %d`, or `verify OK: all %dB in HBM match the file`. -/
inductive Verified where
  | error (e : Error)
  | short (got : Nat)
  | mismatch (idx : Nat)
  | ok
  deriving DecidableEq

/-- The first byte read back that is not the file's. -/
def firstMismatch (readBack prData : List (BitVec 8)) : Option Nat :=
  (List.range readBack.length).find? fun idx => readBack.getD idx 0 != prData.getD idx 0

/-- The comparison of the bytes read back with the file. -/
def compare (readBack prData : List (BitVec 8)) (prSize : Nat) : Verified :=
  if readBack.length ≠ prSize then .short readBack.length
  else match firstMismatch readBack prData with
    | some idx => .mismatch idx
    | none => .ok

/-- The `-verify` pass of `main`. -/
def verify (c : Conn n slotCount) (hbmAddr : Nat) (bitstream : List (BitVec 8)) :
    Verified × Conn n slotCount :=
  match readHBMBy f c hbmAddr (prSize bitstream) with
  | ((_, some e), c') => (.error e, c')
  | ((readBack, none), c') => (compare readBack (prData bitstream) (prSize bitstream), c')

end Pass

/-- Over a memory that answers OKAY it is `readHBM`. -/
theorem readHBMBy_served [FifoKind] (c : Conn n slotCount) (hbmAddr size : Nat) :
    readHBMBy Feed.served c hbmAddr size = readHBM c hbmAddr size := by
  have hloop : ∀ offsets out (c : Conn n slotCount),
      readChunksBy Feed.served hbmAddr size offsets out c = readChunks hbmAddr size offsets out c := by
    intro offsets
    induction offsets with
    | nil => exact fun _ _ => rfl
    | cons o offsets ih =>
        intro out c
        rw [readChunksBy, readChunks, Conn.sendBy_served]
        cases c.sendAndReadStatus s!"READ_HBM[{o / maxReadBytes}]"
            (buildReconfRequest opReadHBM 0 (hbmAddr + o) (min (size - o) maxReadBytes) []) with
        | mk r c' =>
            cases r with
            | error e => rfl
            | ok response => exact ih _ _
  exact hloop _ _ c

theorem firstMismatch_none {readBack prData : List (BitVec 8)} (hlen : readBack.length = prData.length) :
    firstMismatch readBack prData = none ↔ readBack = prData := by
  rw [firstMismatch, List.find?_eq_none]
  constructor
  · intro hall
    refine List.ext_getElem hlen fun i h1 h2 => ?_
    have heq := hall i (List.mem_range.mpr h1)
    rw [bne_iff_ne, not_not, List.getD_eq_getElem _ _ h1, List.getD_eq_getElem _ _ h2] at heq
    exact heq
  · rintro rfl idx -
    rw [bne_iff_ne, not_not]

theorem compare_ok_iff {readBack prData : List (BitVec 8)} {prSize : Nat} (hlen : prData.length = prSize) :
    compare readBack prData prSize = .ok ↔ readBack = prData := by
  unfold compare
  split
  · rename_i hshort
    refine ⟨fun h => (by cases h), fun e => absurd ?_ hshort⟩
    rw [e, hlen]
  · rename_i hfull
    rw [← firstMismatch_none ((not_not.mp hfull).trans hlen.symm)]
    cases firstMismatch readBack prData <;> simp

variable [FifoKind] {f : Feed n slotCount → FeedIn → FeedIn} {c c' : Conn n slotCount} {hbmAddr : Nat}
  {bitstream : List (BitVec 8)}

/-- **The pass is clean** exactly when the bytes read back are those of the file. -/
theorem verify_ok_iff : verify f c hbmAddr bitstream = (.ok, c') ↔
    readHBMBy f c hbmAddr (prSize bitstream) = ((prData bitstream, none), c') := by
  unfold verify
  rcases readHBMBy f c hbmAddr (prSize bitstream) with ⟨⟨readBack, _ | e⟩, c1⟩
  · simp only [Prod.mk.injEq, and_true, compare_ok_iff (length_prData bitstream)]
  · simp only [Prod.mk.injEq, reduceCtorEq, and_false, false_and]

end Pr

/-! ## 2. The status of a failed read -/

/-- **A chunk that looks failed**: the code of ERR_AXI_RRESP or of ERR_RLAST, and zeros behind it. -/
def LooksFailed (chunk : List (BitVec 8)) : Prop :=
  ∃ e ∈ [Err.axiRresp, Err.rlast], chunk = e.code :: List.replicate (chunk.length - 1) 0

instance (chunk : List (BitVec 8)) : Decidable (LooksFailed chunk) :=
  inferInstanceAs (Decidable (∃ e ∈ [Err.axiRresp, Err.rlast], _))

theorem status_bytes (e : Err) :
    toBytes 64 (Resp.status e).tdata = e.code :: List.replicate 63 0 := by
  cases e <;> decide +kernel

/-- The first bytes of a status. -/
theorem status_take (e : Err) {size : Nat} (hpos : 0 < size) (hshort : size ≤ 64) :
    (toBytes 64 (Resp.status e).tdata).take size = e.code :: List.replicate (size - 1) 0 := by
  obtain ⟨k, rfl⟩ := Nat.exists_eq_add_of_lt hpos
  rw [status_bytes, Nat.zero_add, List.take_succ_cons, List.take_replicate, Nat.min_eq_left (by omega)]
  rfl

/-- The errors of a beat are the two of a read. -/
theorem beat_error_mem {b : Beat} {e : Err} (h : b.error = some e) : e ∈ [Err.axiRresp, Err.rlast] := by
  unfold Beat.error at h
  split at h
  · cases h
    exact List.mem_cons_self
  · split at h
    · cases h
    · cases h
      exact List.mem_cons_of_mem _ List.mem_cons_self

/-! ## 3. An image with one byte spoiled -/

section Spoiled

variable {hbmAddr : Nat}

/-- The memory that holds the image but for the byte at `bad`. -/
def spoiled (hbmAddr : Nat) (data : List (BitVec 8)) (bad : Nat) : Mem 33 :=
  Mem.store (fun _ => 0) (BitVec.ofNat 33 hbmAddr) (fun i => (data.set bad 0).getD i 0)
    (data.set bad 0).length

theorem stored_spoiled {data : List (BitVec 8)} (hfits : hbmAddr + data.length ≤ 2 ^ 33) (bad : Nat) :
    stored (spoiled hbmAddr data bad) hbmAddr data.length = data.set bad 0 := by
  have hlen : (data.set bad 0).length = data.length := List.length_set
  rw [spoiled, ← hlen]
  exact stored_store (by rw [hlen]; exact hfits)

/-- The other chunks are as they were. -/
theorem set_slice {data : List (BitVec 8)} {bad o : Nat} (hbad : bad % 64 = 0) (hmod : o % 64 = 0)
    (hne : o ≠ bad) : ((data.set bad 0).drop o).take 64 = (data.drop o).take 64 := by
  apply List.ext_getElem?
  intro i
  rw [List.getElem?_take, List.getElem?_take]
  by_cases hi : i < 64
  · rw [if_pos hi, if_pos hi, List.getElem?_drop, List.getElem?_drop, List.getElem?_set_ne (by omega)]
  · rw [if_neg hi, if_neg hi]

end Spoiled

/-! ## 4. A clean pass over a file no chunk of which looks failed -/

section Run

variable [FifoKind]

section Loop

variable {c c' : Conn n slotCount} {hbmAddr size : Nat} {data : List (BitVec 8)}

/-- A response is a line. -/
theorem send_length {f : Feed n slotCount → FeedIn → FeedIn} {name : String}
    {request response : List (BitVec 8)} (h : c.sendBy f name request = (.ok response, c')) :
    response.length = 64 := by
  have hresp := congrArg Prod.fst h
  rw [Conn.sendBy] at hresp
  cases hans : (c.outcomeBy f request).answered with
  | nil =>
      rw [hans] at hresp
      cases hresp
  | cons x xs =>
      rw [hans] at hresp
      cases hresp
      exact length_toBytes 64 _

/-- What has been read stays. -/
theorem readChunksBy_prefix (f : Feed n slotCount → FeedIn → FeedIn) (hbmAddr size : Nat)
    (offsets : List Nat) (out : List (BitVec 8)) (c : Conn n slotCount) :
    out <+: (Pr.readChunksBy f hbmAddr size offsets out c).1.1 := by
  induction offsets generalizing out c with
  | nil => exact List.prefix_refl out
  | cons o offsets ih =>
      rw [Pr.readChunksBy]
      split
      · exact List.prefix_refl out
      · exact (List.prefix_append out _).trans (ih _ _)

/-- **The loop of the read**, over a memory that may fail it: where it has read the file and the chunk
    does not look failed, the chunk is stored. -/
theorem readChunksBy_stored (hlen : data.length = size) (haligned : hbmAddr % 32 = 0)
    (hfits : hbmAddr + size ≤ 2 ^ 33) {offsets : List Nat} (ho : ∀ o ∈ offsets, o < size ∧ o % 64 = 0)
    (hlook : ∀ o ∈ offsets, ¬ LooksFailed ((data.drop o).take 64)) {out out' : List (BitVec 8)}
    (hk : c.kernel.Idle)
    (h : Pr.readChunksBy Feed.faulty hbmAddr size offsets out c = ((out', none), c'))
    (hout : out' = out ++ offsets.flatMap fun o => (data.drop o).take 64) :
    c'.kernel.sys.mem = c.kernel.sys.mem ∧
      ∀ o ∈ offsets, ((stored c.kernel.sys.mem hbmAddr size).drop o).take 64 = (data.drop o).take 64 := by
  induction offsets generalizing out c with
  | nil =>
      rw [Pr.readChunksBy] at h
      obtain ⟨-, rfl⟩ := Prod.mk.inj h
      exact ⟨rfl, fun o ho => by cases ho⟩
  | cons o offsets ih =>
      obtain ⟨hlt, hmod⟩ := ho o List.mem_cons_self
      have hchunk : ((data.drop o).take 64).length = min (size - o) 64 := by
        rw [List.length_take, List.length_drop, hlen, Nat.min_comm]
      rw [Pr.readChunksBy] at h
      split at h
      · cases h
      · rename_i response c1 hsend
        have hwant : min (size - o) maxReadBytes = min (size - o) 64 := rfl
        rw [hwant] at h hsend
        obtain ⟨hk1, -, hmem1, hresp⟩ := read_request_by (B := fun _ => True) faulty_answers hk
          (by omega) (by omega) (by omega) (by omega) (fun i _ y => ⟨faulty_stored y i, fun _ => trivial⟩)
          hsend
        rw [List.flatMap_cons] at hout
        -- the bytes of this exchange are those of the chunk: both start what is read behind `out`
        have hfirst : response.take (min (size - o) 64) = (data.drop o).take 64 := by
          have hpre : out ++ response.take (min (size - o) 64) <+: out' := by
            have hkept := readChunksBy_prefix (Feed.faulty) hbmAddr size offsets
              (out ++ response.take (min (size - o) 64)) c1
            rw [h] at hkept
            exact hkept
          rw [hout, List.prefix_append_right_inj] at hpre
          refine (List.prefix_of_prefix_length_le hpre (List.prefix_append _ _) ?_).eq_of_length ?_
          all_goals
            rw [hchunk, List.length_take, send_length hsend]
            omega
        obtain ⟨hmem, hrest⟩ := ih (fun o' h' => ho o' (List.mem_cons_of_mem _ h'))
          (fun o' h' => hlook o' (List.mem_cons_of_mem _ h')) hk1 h
          (by rw [hfirst, List.append_assoc]; exact hout)
        refine ⟨hmem.trans hmem1, fun o' h' => ?_⟩
        rcases List.mem_cons.mp h' with rfl | h'
        · rcases hresp with hbytes | ⟨b, e, -, hbe, rfl⟩
          · rw [stored_slice, ← hfirst]
            exact hbytes.symm
          · refine absurd ⟨e, beat_error_mem hbe, ?_⟩ (hlook o' List.mem_cons_self)
            rw [hchunk, ← status_take e (by omega) (by omega), hfirst]
        · rw [← hmem1]
          exact hrest o' h'

end Loop

/-! ## 5. A clean pass over a file with a chunk that looks failed -/

/-- A window whose beats are all answered with `rresp` and `rlast`. -/
def readWindow (rresp : BitVec 2) (rlast : Bool) : List FeedIn :=
  openWindow.map fun i => { i with pins := { i.pins with rresp := rresp, rlast := rlast } }

theorem readWindow_patient (rresp : BitVec 2) (rlast : Bool) : Patient 3 64 (readWindow rresp rlast) := by
  obtain ⟨is, js, hw, hsent, henough⟩ := openWindow_patient
  refine ⟨_, _, by rw [readWindow, hw, List.map_append], ?_, ?_⟩
  · rw [List.countP_map]
    exact hsent
  · rw [List.countP_map]
    exact henough

/-- The window of a read that fails with `e`. -/
def failWindow : Err → List FeedIn
  | .rlast => readWindow 0 false
  | _ => readWindow 2 true

theorem goodWindow_beats : ∀ i ∈ readWindow 0 true, ∀ y : Feed n slotCount,
    BeatsMeet (·.error = none) y.kernel.sys (y.pinsAt (y.faulty i)) := by
  intro i hi y
  obtain ⟨j, -, rfl⟩ := List.mem_map.mp hi
  exact ⟨faulty_stored y _, fun _ => beat_good rfl rfl⟩

theorem failWindow_beats {e : Err} (he : e ∈ [Err.axiRresp, Err.rlast]) :
    ∀ i ∈ failWindow e, ∀ y : Feed n slotCount, BeatsFail e y.kernel.sys (y.pinsAt (y.faulty i)) := by
  rcases List.mem_pair.mp he with rfl | rfl <;> intro i hi y _ <;>
    obtain ⟨j, -, rfl⟩ := List.mem_map.mp hi
  · exact beat_bad (Or.inl ⟨show (2 : BitVec 2) ≠ 0 from by decide, rfl⟩)
  · exact beat_bad (Or.inr ⟨rfl, rfl, rfl⟩)

theorem failWindow_patient (e : Err) : Patient 3 64 (failWindow e) := by
  cases e <;> exact readWindow_patient _ _

/-- The windows of a pass in which the read at `bad` fails with `e`, and no other. -/
def foolingWindow (bad : Nat) (e : Err) (offset : Nat) : List FeedIn :=
  if offset = bad then failWindow e else readWindow 0 true

section Fooled

variable {c : Conn n slotCount} {hbmAddr size bad : Nat} {data : List (BitVec 8)} {e : Err}

/-- One exchange of such a pass. -/
theorem read_fooled (he : e ∈ [Err.axiRresp, Err.rlast]) (haligned : hbmAddr % 32 = 0)
    (hfits : hbmAddr + size ≤ 2 ^ 33) {o : Nat} (hlt : o < size) (hmod : o % 64 = 0) (hk : c.kernel.Idle)
    (hw : c.windows.headD [] = foolingWindow bad e o)
    (hgood : o ≠ bad → ((stored c.kernel.sys.mem hbmAddr size).drop o).take 64 = (data.drop o).take 64)
    (hbad : o = bad → (data.drop o).take 64 = e.code :: List.replicate (min (size - o) 64 - 1) 0)
    (name : String) :
    ∃ response c', c.sendBy Feed.faulty name (Pr.buildReconfRequest Pr.opReadHBM 0 (hbmAddr + o)
        (min (size - o) 64) []) = (.ok response, c') ∧
      response.take (min (size - o) 64) = (data.drop o).take 64 ∧ c'.kernel.Idle ∧
      c'.kernel.sys.mem = c.kernel.sys.mem ∧ c'.windows = c.windows.tail := by
  have hpatient : Patient 3 64 (c.windows.headD []) := by
    rw [hw, foolingWindow]
    split
    · exact failWindow_patient e
    · exact readWindow_patient 0 true
  have hanswered := request_answered faulty_answers 0 hk (by omega) (by omega)
    (read_valid (show (hbmAddr + o) % 32 = 0 by omega) (by omega)
      (show 0 < min (size - o) 64 by omega) (by omega))
    (Nat.zero_le _) (by rfl) (no_payload (by decide) _) (hpatient.mono (by decide) (by omega))
  obtain ⟨response, hsend⟩ := send_answered name hanswered
  obtain ⟨hk', hwin, hmem, -⟩ := read_request_by (B := fun _ => True) faulty_answers hk (by omega)
    (by omega) (by omega) (by omega) (fun i _ y => ⟨faulty_stored y i, fun _ => trivial⟩) hsend
  refine ⟨response, _, hsend, ?_, hk', hmem, hwin⟩
  by_cases ho : o = bad
  · have hfail : ∀ i ∈ c.windows.headD [], ∀ y : Feed n slotCount,
        BeatsFail e y.kernel.sys (y.pinsAt (y.faulty i)) := by
      rw [hw, foolingWindow, if_pos ho]
      exact failWindow_beats he
    rw [read_request_failed faulty_answers hk (by omega) (by omega) (by omega) (by omega) hfail hsend,
      status_take e (by omega) (by omega), hbad ho]
  · have hbeats : ∀ i ∈ c.windows.headD [], ∀ y : Feed n slotCount,
        BeatsMeet (·.error = none) y.kernel.sys (y.pinsAt (y.faulty i)) := by
      rw [hw, foolingWindow, if_neg ho]
      exact goodWindow_beats
    obtain ⟨-, -, -, hbytes | ⟨b, e', hgood', hbad', -⟩⟩ := read_request_by faulty_answers hk (by omega)
      (by omega) (by omega) (by omega) hbeats hsend
    · rw [← hgood ho, stored_slice, hbytes]
      rfl
    · rw [hgood'] at hbad'
      cases hbad'

/-- **The loop of such a pass** reads the file, whatever stands at the chunk that looks failed. -/
theorem readChunksBy_fooled (he : e ∈ [Err.axiRresp, Err.rlast]) (haligned : hbmAddr % 32 = 0)
    (hfits : hbmAddr + size ≤ 2 ^ 33) {offsets : List Nat} (ho : ∀ o ∈ offsets, o < size ∧ o % 64 = 0)
    (hk : c.kernel.Idle) (hw : c.windows = offsets.map (foolingWindow bad e))
    (hgood : ∀ o ∈ offsets, o ≠ bad →
      ((stored c.kernel.sys.mem hbmAddr size).drop o).take 64 = (data.drop o).take 64)
    (hbad : bad ∈ offsets →
      (data.drop bad).take 64 = e.code :: List.replicate (min (size - bad) 64 - 1) 0)
    (out : List (BitVec 8)) :
    ∃ c', Pr.readChunksBy Feed.faulty hbmAddr size offsets out c =
        ((out ++ offsets.flatMap fun o => (data.drop o).take 64, none), c') ∧
      c'.kernel.sys.mem = c.kernel.sys.mem := by
  induction offsets generalizing out c with
  | nil => exact ⟨c, by rw [Pr.readChunksBy, List.flatMap_nil, List.append_nil], rfl⟩
  | cons o offsets ih =>
      obtain ⟨hlt, hmod⟩ := ho o List.mem_cons_self
      have hwant : min (size - o) maxReadBytes = min (size - o) 64 := rfl
      obtain ⟨response, c1, hsend, hfirst, hk1, hmem1, hwin1⟩ :=
        read_fooled he haligned hfits hlt hmod hk (by rw [hw]; rfl) (hgood o List.mem_cons_self)
          (fun e => by subst e; exact hbad List.mem_cons_self) s!"READ_HBM[{o / maxReadBytes}]"
      obtain ⟨c', hrest, hmem⟩ := ih (fun o' h' => ho o' (List.mem_cons_of_mem _ h')) hk1
        (by rw [hwin1, hw]; rfl)
        (fun o' h' hne => by rw [hmem1]; exact hgood o' (List.mem_cons_of_mem _ h') hne)
        (fun h' => hbad (List.mem_cons_of_mem _ h')) (out ++ (data.drop o).take 64)
      refine ⟨c', ?_, hmem.trans hmem1⟩
      rw [Pr.readChunksBy]
      simp only [hwant, hsend, hfirst]
      rw [hrest, List.flatMap_cons, List.append_assoc]

end Fooled

/-! ## 6. What a clean pass proves -/

section Staged

variable {hbmAddr : Nat} {bitstream : List (BitVec 8)}

/-- A device whose memory holds the image but for the byte at `bad`, where the read fails with `e`. -/
def foolingConn (n slotCount hbmAddr : Nat) (data : List (BitVec 8)) (bad : Nat) (e : Err) :
    Conn n slotCount :=
  ⟨Kernel.reset n slotCount (spoiled hbmAddr data bad), 0,
    ((List.range ((data.length + (maxReadBytes - 1)) / maxReadBytes)).map (maxReadBytes * ·)).map
      (foolingWindow bad e)⟩

/-- **The pass over it is clean**, if the chunk at `bad` is the status. -/
theorem verify_fooled (n slotCount : Nat) {bad : Nat} {e : Err} (he : e ∈ [Err.axiRresp, Err.rlast])
    (haligned : hbmAddr % 32 = 0) (hfits : hbmAddr + Pr.prSize bitstream ≤ 2 ^ 33) (hmod : bad % 64 = 0)
    (hbad : ((Pr.prData bitstream).drop bad).take 64 =
      e.code :: List.replicate (min (Pr.prSize bitstream - bad) 64 - 1) 0) :
    ∃ c', Pr.verify Feed.faulty (foolingConn n slotCount hbmAddr (Pr.prData bitstream) bad e) hbmAddr
        bitstream = (.ok, c') ∧
      stored c'.kernel.sys.mem hbmAddr (Pr.prSize bitstream) = (Pr.prData bitstream).set bad 0 := by
  have hlen := Pr.length_prData bitstream
  have hstored : stored (foolingConn n slotCount hbmAddr (Pr.prData bitstream) bad e).kernel.sys.mem
      hbmAddr (Pr.prSize bitstream) = (Pr.prData bitstream).set bad 0 := by
    rw [← hlen]
    exact stored_spoiled (by omega) bad
  have hwin : (foolingConn n slotCount hbmAddr (Pr.prData bitstream) bad e).windows =
      ((List.range ((Pr.prSize bitstream + (maxReadBytes - 1)) / maxReadBytes)).map
        (maxReadBytes * ·)).map (foolingWindow bad e) := by
    rw [foolingConn, hlen]
  obtain ⟨c', hread, hmem⟩ := readChunksBy_fooled he haligned hfits
    (offsets_below (Pr.prSize bitstream)) (idle_reset _) hwin
    (fun o ho hne => by rw [hstored]; exact set_slice hmod (offsets_below _ o ho).2 hne)
    (fun _ => hbad) []
  refine ⟨c', Pr.verify_ok_iff.mpr ?_, by rw [hmem]; exact hstored⟩
  rw [Pr.readHBMBy, hread, List.nil_append, offsets_flatMap hlen]

/-- **A clean `-verify` pass proves the image staged** -- for every memory content and every behaviour of
    the memory -- exactly when no chunk of the image looks failed. -/
theorem verify_staged_iff (haligned : hbmAddr % 32 = 0)
    (hfits : hbmAddr + Pr.prSize bitstream ≤ 2 ^ 33) :
    (∀ c c' : Conn n slotCount, c.kernel.Idle → Pr.verify Feed.faulty c hbmAddr bitstream = (.ok, c') →
      stored c'.kernel.sys.mem hbmAddr (Pr.prSize bitstream) = Pr.prData bitstream) ↔
    ∀ chunk ∈ chunks 64 (Pr.prData bitstream), ¬ LooksFailed chunk := by
  have hlen := Pr.length_prData bitstream
  constructor
  · rintro hsound chunk hchunk ⟨e, he, hstatus⟩
    obtain ⟨i, hi, rfl⟩ := mem_chunks (by decide) hchunk
    have hlength : (((Pr.prData bitstream).drop (64 * i)).take 64).length =
        min (Pr.prSize bitstream - 64 * i) 64 := by
      rw [List.length_take, List.length_drop, hlen, Nat.min_comm]
    rw [hlength] at hstatus
    obtain ⟨c', hok, hspoiled⟩ := verify_fooled n slotCount he haligned hfits (by omega) hstatus
    -- the byte of the status code is not the zero stored
    have hset := hspoiled.symm.trans (hsound _ c' (idle_reset _) hok)
    have hzero := congrArg (·[64 * i]?) hset
    have hcode := congrArg (·[0]?) hstatus
    simp only [List.getElem?_set_self hi] at hzero
    simp only [List.getElem?_take, List.getElem?_drop, Nat.add_zero, ← hzero, List.getElem?_cons_zero]
      at hcode
    rcases List.mem_pair.mp he with rfl | rfl <;> cases hcode
  · intro hlook c c' hk hok
    have hread := Pr.verify_ok_iff.mp hok
    rw [chunks, hlen, List.forall_mem_map] at hlook
    obtain ⟨hmem, hchunks⟩ := readChunksBy_stored hlen haligned hfits (offsets_below _)
      (List.forall_mem_map.mpr hlook) hk hread (by rw [List.nil_append, offsets_flatMap hlen])
    rw [hmem, ← offsets_flatMap (length_stored c.kernel.sys.mem hbmAddr (Pr.prSize bitstream)),
      List.flatMap_congr hchunks, offsets_flatMap hlen]

end Staged

end Run

section Source

attribute [local instance] axisDataFifos

/-- A device whose memory holds five bytes filled up to eight, and answers the read of them. -/
def stagedConn : Conn 2 2 :=
  ⟨Kernel.reset 2 2 (Mem.store (fun _ => 0x55) 0x40 (fun i => [1, 2, 3, 4, 5, 0, 0, 0].getD i 0) 8), 7,
    [readWindow 0 true]⟩

/-- The pass over it is clean, and proves the five bytes staged. -/
theorem verify_five_bytes :
    ∃ c', Pr.verify Feed.faulty stagedConn 0x40 [1, 2, 3, 4, 5] = (.ok, c') ∧
      stored c'.kernel.sys.mem 0x40 8 = [1, 2, 3, 4, 5, 0, 0, 0] := by
  have hstored : stored stagedConn.kernel.sys.mem 0x40 8 = [1, 2, 3, 4, 5, 0, 0, 0] := by decide
  -- no read fails: the one at 64 would, and there is none
  obtain ⟨c', hread, -⟩ := @readChunksBy_fooled 2 2 _ stagedConn 0x40 8 64 [1, 2, 3, 4, 5, 0, 0, 0] .rlast
    (by decide) (by decide) (by decide) _ (offsets_below 8) (idle_reset _) rfl
    (fun o _ _ => by rw [hstored]) (fun h => absurd h (by decide)) []
  have hok : Pr.verify Feed.faulty stagedConn 0x40 [1, 2, 3, 4, 5] = (.ok, c') :=
    Pr.verify_ok_iff.mpr hread
  have hsound := (verify_staged_iff (by decide) (by decide)).mpr (by decide) stagedConn c' (idle_reset _) hok
  exact ⟨c', hok, hsound⟩

/-- A device whose memory holds zeros, and answers a read with an RRESP error. -/
def deceivingConn : Conn 2 2 := ⟨Kernel.reset 2 2 fun _ => 0, 7, [readWindow 2 true]⟩

/-- The file of the one byte 6: its image is the status the device answers, so the pass is clean; what
    the memory holds is not the image. -/
theorem verify_deceived :
    deceivingConn.kernel.Idle ∧
      ∃ c', Pr.verify Feed.faulty deceivingConn 0x40 [6] = (.ok, c') ∧
        stored c'.kernel.sys.mem 0x40 (Pr.prSize [6]) = [0, 0, 0, 0] ∧
        Pr.prData [6] = [6, 0, 0, 0] := by
  obtain ⟨c', hread, hmem⟩ := @readChunksBy_fooled 2 2 _ deceivingConn 0x40 4 0 [6, 0, 0, 0] .axiRresp
    (by decide) (by decide) (by decide) _ (offsets_below 4) (idle_reset _) rfl
    (fun o ho hne => absurd (List.mem_singleton.mp ho) hne) (fun _ => rfl) []
  refine ⟨idle_reset _, c', Pr.verify_ok_iff.mpr hread, ?_, rfl⟩
  rw [hmem]
  rfl

end Source

end Frac.Client
