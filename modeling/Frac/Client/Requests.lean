/-
  File:      Frac/Client/Requests.lean
  Subject:   The requests the Go clients build (`sw/app/main.go`, `sw/pr/main.go`), as strings of
             bytes, and the 512-bit lines the device reads them as.

  Go's `int` is a natural number here; `uint32`, `uint64` and the bytes they are put into drop what
  does not fit (`leBytes`).

  * `App.buildHeader`, `Pr.buildHeader` -- the header line; `header_first` and its neighbours -- its
    fields as the device decodes them;
  * `Pr.buildReconfCommand`, `Pr.buildReconfRequest` -- a controller request; `Pr.command_addr` and
    its neighbours -- the fields of its command;
  * `App.buildRequest` -- an application request, cut into TCP segments.
-/
import Frac.Lib.Bytes

namespace Frac.Client

open Bits

/-! ## 1. Headers -/

def requestLineBytes : Nat := 64
def requestPrefixBytes : Nat := 56
def maxSegmentBytes : Nat := 4096
def maxReadBytes : Nat := 64
def defaultTopConfig : BitVec 16 := 0xffff
def reconfWorkloadID : BitVec 16 := 0x00ab

def reqFlagFirst : BitVec 8 := 1
def reqFlagLast : BitVec 8 := 2
def reqFlagSingle : BitVec 8 := reqFlagFirst ||| reqFlagLast

/-- A line of bytes as the device reads it. -/
def line (bs : List (BitVec 8)) : BitVec 512 := ofBytes 64 bs

namespace App

/-- `buildHeader` of `sw/app`. -/
def buildHeader (totalSize : Nat) (workloadID : BitVec 16) (flags : BitVec 8)
    (topConfig : BitVec 16) : List (BitVec 8) :=
  List.replicate requestPrefixBytes 0xff ++ (leBytes 4 totalSize ++
    ([byteAt topConfig 0 &&& ~~~3 ||| flags &&& 3, byteAt topConfig 1] ++
      leBytes 2 workloadID.toNat))

/-- `effectiveTopConfig`: what a slot reads out of bytes 60 and 61. -/
def effectiveTopConfig (topConfig : BitVec 16) (flags : BitVec 8) : BitVec 16 :=
  topConfig &&& ~~~3 ||| (flags &&& 3).setWidth 16

end App

namespace Pr

/-- `buildHeader` of `sw/pr`: the top configuration is fixed. -/
def buildHeader (totalSize : Nat) (workloadID : BitVec 16) (requestFlags : BitVec 8) :
    List (BitVec 8) :=
  App.buildHeader totalSize workloadID requestFlags defaultTopConfig

end Pr

section Header

variable (totalSize : Nat) (workloadID : BitVec 16) (flags : BitVec 8) (topConfig : BitVec 16)

theorem length_header :
    (App.buildHeader totalSize workloadID flags topConfig).length = requestLineBytes := by
  simp [App.buildHeader, requestPrefixBytes, requestLineBytes]

/-- The bytes of the header line, by field. -/
theorem header_prefix {j : Nat} (hj : j < 56) :
    byteAt (line (App.buildHeader totalSize workloadID flags topConfig)) j = 0xff := by
  rw [line, byteAt_ofBytes _ (by omega), App.buildHeader,
    List.getD_append _ _ _ _ (by rw [List.length_replicate]; exact hj)]
  exact List.getD_replicate _ hj

/-- The prefix, as the slot modules look for it. -/
theorem header_ones :
    (line (App.buildHeader totalSize workloadID flags topConfig)).extractLsb' 0 448 =
      BitVec.allOnes 448 := by
  apply BitVec.eq_of_getLsbD_eq
  intro t ht
  have hbyte := header_prefix totalSize workloadID flags topConfig (j := t / 8) (by omega)
  have hbit := congrArg (fun b => b.getLsbD (t % 8)) hbyte
  simp only [byteAt, BitVec.getLsbD_extractLsb'] at hbit
  rw [decide_eq_true (Nat.mod_lt t (by decide)), Bool.true_and, Nat.div_add_mod] at hbit
  rw [BitVec.getLsbD_extractLsb', decide_eq_true ht, Bool.true_and, Nat.zero_add, hbit,
    BitVec.getLsbD_allOnes, decide_eq_true ht]
  have h8 : t % 8 < 8 := Nat.mod_lt t (by decide)
  exact (by decide : ∀ k < 8, (0xff#8).getLsbD k = true) _ h8

theorem header_tail {j : Nat} (hj : j < 8) :
    byteAt (line (App.buildHeader totalSize workloadID flags topConfig)) (56 + j) =
      (leBytes 4 totalSize ++ ([byteAt topConfig 0 &&& ~~~3 ||| flags &&& 3, byteAt topConfig 1] ++
        leBytes 2 workloadID.toNat)).getD j 0 := by
  rw [line, byteAt_ofBytes _ (by omega), App.buildHeader,
    List.getD_append_right _ _ _ _ (by simp [requestPrefixBytes])]
  simp [requestPrefixBytes]

/-- The declared size. -/
theorem header_size :
    ((line (App.buildHeader totalSize workloadID flags topConfig)).extractLsb' 448 32).toNat =
      totalSize % 2 ^ 32 := by
  have hbytes : leNat (line (App.buildHeader totalSize workloadID flags topConfig)) 56 4 =
      totalSize % 256 ^ 4 := by
    refine leNat_leBytes fun j hj => ?_
    rw [header_tail _ _ _ _ (by omega), List.getD_append _ _ _ _ (by simpa using hj)]
  rw [leNat_eq] at hbytes
  exact hbytes

/-- The workload. -/
theorem header_workload :
    (line (App.buildHeader totalSize workloadID flags topConfig)).extractLsb' 496 16 = workloadID := by
  have hbytes : leNat (line (App.buildHeader totalSize workloadID flags topConfig)) 62 2 =
      workloadID.toNat % 256 ^ 2 := by
    refine leNat_leBytes fun j hj => ?_
    rw [show 62 + j = 56 + (6 + j) by omega, header_tail _ _ _ _ (by omega),
      List.getD_append_right _ _ _ _ (by rw [length_leBytes]; omega),
      List.getD_append_right _ _ _ _ (by simp only [length_leBytes, List.length_cons, List.length_nil]; omega)]
    congr 1
    simp only [length_leBytes, List.length_cons, List.length_nil]
    omega
  rw [leNat_eq] at hbytes
  refine BitVec.eq_of_toNat_eq (hbytes.trans ?_)
  exact Nat.mod_eq_of_lt workloadID.isLt

/-- The byte with the request flags. -/
theorem header_flags :
    byteAt (line (App.buildHeader totalSize workloadID flags topConfig)) 60 =
      byteAt topConfig 0 &&& ~~~3 ||| flags &&& 3 := by
  rw [show 60 = 56 + 4 from rfl, header_tail _ _ _ _ (by decide),
    List.getD_append_right _ _ _ _ (by simp)]
  simp

/-- FIRST and LAST, bits 480 and 481 of the line, are bits 0 and 1 of the flags. -/
theorem header_flag {b : Nat} (hb : b < 2) :
    (line (App.buildHeader totalSize workloadID flags topConfig)).getLsbD (480 + b) =
      flags.getLsbD b := by
  have hbit := congrArg (fun x => x.getLsbD b) (header_flags totalSize workloadID flags topConfig)
  simp only [byteAt, BitVec.getLsbD_extractLsb', BitVec.getLsbD_or, BitVec.getLsbD_and,
    BitVec.getLsbD_not] at hbit
  rw [decide_eq_true (by omega : b < 8), Bool.true_and] at hbit
  rw [show 480 + b = 8 * 60 + b by omega, hbit]
  have h3 : (3#8).getLsbD b = true := by
    rcases (by omega : b = 0 ∨ b = 1) with rfl | rfl <;> rfl
  simp [h3]

/-- The byte above the flags. -/
theorem header_top :
    byteAt (line (App.buildHeader totalSize workloadID flags topConfig)) 61 = byteAt topConfig 1 := by
  rw [show 61 = 56 + 5 from rfl, header_tail _ _ _ _ (by decide),
    List.getD_append_right _ _ _ _ (by simp)]
  simp

/-- The mask that `top_k` reads. -/
theorem header_mask :
    (line (App.buildHeader totalSize workloadID flags topConfig)).extractLsb' 480 16 =
      App.effectiveTopConfig topConfig flags := by
  apply BitVec.eq_of_getLsbD_eq
  intro t ht
  have hlow := congrArg (fun b => b.getLsbD t) (header_flags totalSize workloadID flags topConfig)
  have hhigh := congrArg (fun b => b.getLsbD (t - 8)) (header_top totalSize workloadID flags topConfig)
  simp only [byteAt, BitVec.getLsbD_extractLsb', BitVec.getLsbD_or, BitVec.getLsbD_and,
    BitVec.getLsbD_not] at hlow hhigh
  rw [App.effectiveTopConfig, BitVec.getLsbD_extractLsb', decide_eq_true ht, Bool.true_and,
    BitVec.getLsbD_or, BitVec.getLsbD_and, BitVec.getLsbD_not, BitVec.getLsbD_setWidth,
    BitVec.getLsbD_and, decide_eq_true ht, Bool.true_and, Bool.true_and]
  by_cases h8 : t < 8
  · rw [decide_eq_true h8, Bool.true_and, Bool.true_and, Nat.mul_zero, Nat.zero_add] at hlow
    rw [show 480 + t = 8 * 60 + t from rfl, hlow]
    have hthree : (3 : BitVec 8).getLsbD t = (3 : BitVec 16).getLsbD t :=
      (by decide : ∀ t < 8, (3 : BitVec 8).getLsbD t = (3 : BitVec 16).getLsbD t) t h8
    rw [hthree, Bool.true_and]
  · have hlt : t - 8 < 8 := by omega
    rw [decide_eq_true hlt, Bool.true_and, Bool.true_and, show 8 * 1 + (t - 8) = t by omega,
      show 8 * 61 + (t - 8) = 480 + t by omega] at hhigh
    rw [hhigh]
    have hthree : (3 : BitVec 16).getLsbD t = false :=
      (by decide : ∀ t < 16, 8 ≤ t → (3 : BitVec 16).getLsbD t = false) t ht (by omega)
    rw [hthree, Bool.not_false, Bool.and_true, BitVec.getLsbD_of_ge flags t (by omega), Bool.false_and,
      Bool.or_false]

end Header

/-! ## 2. Controller requests -/

namespace Pr

/-- `buildReconfCommand`. -/
def buildReconfCommand (opcode slotID : BitVec 8) (hbmAddr size : Nat) : List (BitVec 8) :=
  [opcode, slotID] ++ (List.replicate 6 0 ++ (leBytes 8 hbmAddr ++ (leBytes 8 size ++
    List.replicate 40 0)))

/-- `buildReconfRequest`. -/
def buildReconfRequest (opcode slotID : BitVec 8) (hbmAddr size : Nat) (payload : List (BitVec 8)) :
    List (BitVec 8) :=
  buildHeader (requestLineBytes + payload.length) reconfWorkloadID reqFlagSingle ++
    (buildReconfCommand opcode slotID hbmAddr size ++ payload)

section Command

variable (opcode slotID : BitVec 8) (hbmAddr size : Nat)

theorem length_command : (buildReconfCommand opcode slotID hbmAddr size).length = requestLineBytes := by
  simp [buildReconfCommand, requestLineBytes]

theorem command_byte {j : Nat} (hj : j < 64) :
    byteAt (line (buildReconfCommand opcode slotID hbmAddr size)) j =
      (buildReconfCommand opcode slotID hbmAddr size).getD j 0 :=
  byteAt_ofBytes _ hj

/-- The opcode. -/
theorem command_opcode :
    leNat (line (buildReconfCommand opcode slotID hbmAddr size)) 0 1 = opcode.toNat := by
  have hlow := command_byte opcode slotID hbmAddr size (j := 0) (by decide)
  simp only [leNat, hlow]
  rfl

/-- The slot. -/
theorem command_slot :
    leNat (line (buildReconfCommand opcode slotID hbmAddr size)) 1 1 = slotID.toNat := by
  have hlow := command_byte opcode slotID hbmAddr size (j := 1) (by decide)
  simp only [leNat, hlow]
  rfl

/-- The address. -/
theorem command_addr :
    leNat (line (buildReconfCommand opcode slotID hbmAddr size)) 8 8 = hbmAddr % 2 ^ 64 := by
  refine leNat_leBytes fun j hj => ?_
  rw [command_byte _ _ _ _ (by omega), buildReconfCommand, ← List.append_assoc,
    List.getD_append_right _ _ _ _ (by simp), List.getD_append _ _ _ _ (by simp; omega)]
  simp

/-- The size. -/
theorem command_size :
    leNat (line (buildReconfCommand opcode slotID hbmAddr size)) 16 8 = size % 2 ^ 64 := by
  refine leNat_leBytes fun j hj => ?_
  rw [command_byte _ _ _ _ (by omega), buildReconfCommand, ← List.append_assoc, ← List.append_assoc,
    List.getD_append_right _ _ _ _ (by simp), List.getD_append _ _ _ _ (by simp; omega)]
  simp

end Command

end Pr

/-! ## 3. Application requests -/

namespace App

/-- A request of `sw/app`. -/
structure Request where
  workload : BitVec 16
  flags : BitVec 8
  topConfig : BitVec 16
  dataLines : Nat
  totalBytes : Nat
  segments : List (List (BitVec 8))

/-- A segment `pkt_receiver.v` accepts. -/
def segmentOk (seg : List (BitVec 8)) : Bool :=
  seg.length % requestLineBytes == 0 && decide (requestLineBytes ≤ seg.length) &&
    decide (seg.length ≤ maxSegmentBytes)

/-- The last check of `buildRequest`: the first segment that is not accepted. -/
def checkSegments (req : Request) : Except String Request :=
  match req.segments.zipIdx.find? fun x => !segmentOk x.1 with
  | none => .ok req
  | some (seg, idx) => .error s!"segment {idx} is {seg.length} bytes; pkt_receiver.v accepts {requestLineBytes}..{maxSegmentBytes} in {requestLineBytes}-byte steps"

/-- `buildRequest` of `sw/app`. -/
def buildRequest (workload : BitVec 16) (payload : List (BitVec 8)) (topConfig : BitVec 16)
    (singleSegment : Bool) : Except String Request :=
  let total := requestLineBytes + payload.length
  let header := fun flags => buildHeader total workload flags topConfig
  let request := fun flags segments => checkSegments
    ⟨workload, flags, topConfig, payload.length / requestLineBytes, total, segments⟩
  if payload.length % requestLineBytes ≠ 0 then
    .error s!"payload must be a whole number of {requestLineBytes}-byte lines, got {payload.length}"
  else if payload.length = 0 then request reqFlagSingle [header reqFlagSingle]
  else if singleSegment then
    if total > maxSegmentBytes then
      .error s!"-single-segment needs the whole {total}-byte request to fit one {maxSegmentBytes}-byte segment"
    else request reqFlagSingle [header reqFlagSingle ++ payload]
  else request reqFlagFirst (header reqFlagFirst :: chunks maxSegmentBytes payload)

/-- **What `buildRequest` guarantees.** -/
structure Built (workload : BitVec 16) (payload : List (BitVec 8)) (topConfig : BitVec 16)
    (req : Request) : Prop where
  bytes : req.segments.flatten =
    buildHeader (requestLineBytes + payload.length) workload req.flags topConfig ++ payload
  whole : payload.length = requestLineBytes * req.dataLines
  total : req.totalBytes = requestLineBytes + payload.length
  first : req.flags.getLsbD 0 = true
  last : req.flags.getLsbD 1 = true → req.segments.length = 1
  accepted : ∀ seg ∈ req.segments, segmentOk seg = true

theorem checkSegments_ok {req req' : Request} (h : checkSegments req = .ok req') :
    req' = req ∧ ∀ seg ∈ req.segments, segmentOk seg = true := by
  unfold checkSegments at h
  split at h
  · rename_i hnone
    refine ⟨(Except.ok.inj h).symm, fun seg hseg => ?_⟩
    obtain ⟨i, hi⟩ := List.mem_iff_getElem?.mp hseg
    have hmem : (seg, i) ∈ req.segments.zipIdx := List.mk_mem_zipIdx_iff_getElem?.mpr hi
    simpa using List.find?_eq_none.mp hnone _ hmem
  · cases h

theorem checkSegments_of {req : Request} (h : ∀ seg ∈ req.segments, segmentOk seg = true) :
    checkSegments req = .ok req := by
  have hnone : req.segments.zipIdx.find? (fun x => !segmentOk x.1) = none := by
    refine List.find?_eq_none.mpr fun x hx => ?_
    have hmem : x.1 ∈ req.segments :=
      List.mem_of_getElem? (List.mk_mem_zipIdx_iff_getElem?.mp hx)
    simp [h x.1 hmem]
  rw [checkSegments, hnone]

/-- **The default framing succeeds** on whole lines. -/
theorem buildRequest_default (workload : BitVec 16) {payload : List (BitVec 8)} (topConfig : BitVec 16)
    (h : payload.length % 64 = 0) : ∃ req, buildRequest workload payload topConfig false = .ok req := by
  have hhead : ∀ flags, segmentOk (buildHeader (requestLineBytes + payload.length) workload flags
      topConfig) = true := by
    intro flags
    rw [segmentOk, length_header]
    decide
  unfold buildRequest
  simp only
  rw [if_neg (by rw [requestLineBytes]; exact not_not.mpr h)]
  split
  · refine ⟨_, checkSegments_of fun seg hseg => ?_⟩
    rw [List.mem_singleton.mp hseg]
    exact hhead _
  · rw [if_neg Bool.false_ne_true]
    refine ⟨_, checkSegments_of fun seg hseg => ?_⟩
    rcases List.mem_cons.mp hseg with rfl | hseg
    · exact hhead _
    · obtain ⟨i, hi, rfl⟩ := mem_chunks (by decide) hseg
      have hlen : ((payload.drop (maxSegmentBytes * i)).take maxSegmentBytes).length =
          min 4096 (payload.length - 4096 * i) := by
        rw [List.length_take, List.length_drop]
        rfl
      rw [maxSegmentBytes] at hi
      rw [segmentOk, hlen, Bool.and_eq_true, Bool.and_eq_true, beq_iff_eq, decide_eq_true_eq,
        decide_eq_true_eq, requestLineBytes, maxSegmentBytes]
      omega

theorem buildRequest_ok {workload : BitVec 16} {payload : List (BitVec 8)} {topConfig : BitVec 16}
    {singleSegment : Bool} {req : Request}
    (h : buildRequest workload payload topConfig singleSegment = .ok req) :
    Built workload payload topConfig req := by
  unfold buildRequest at h
  simp only at h
  split at h
  · cases h
  rename_i hmod
  have hwhole : payload.length = requestLineBytes * (payload.length / requestLineBytes) :=
    (Nat.mul_div_cancel' (Nat.dvd_of_mod_eq_zero (not_not.mp hmod))).symm
  split at h
  · rename_i hnil
    obtain ⟨rfl, hok⟩ := checkSegments_ok h
    refine ⟨?_, hwhole, rfl, show reqFlagSingle.getLsbD 0 = true by decide, fun _ => rfl, hok⟩
    rw [List.length_eq_zero_iff.mp hnil]
    rfl
  split at h
  · split at h
    · cases h
    · obtain ⟨rfl, hok⟩ := checkSegments_ok h
      exact ⟨List.append_nil _, hwhole, rfl, show reqFlagSingle.getLsbD 0 = true by decide,
        fun _ => rfl, hok⟩
  · obtain ⟨rfl, hok⟩ := checkSegments_ok h
    refine ⟨?_, hwhole, rfl, show reqFlagFirst.getLsbD 0 = true by decide, fun hlast => ?_, hok⟩
    · rw [List.flatten_cons, flatten_chunks (by decide)]
    · exact absurd hlast (show reqFlagFirst.getLsbD 1 ≠ true by decide)

end App

end Frac.Client
