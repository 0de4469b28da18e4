/-
  File:      Frac/Client/Staging.lean
  Subject:   Where `sw/swap/main.go` stages its two images: the checks of `main`, the addresses it
             computes in 64 bits, and the requests that go to them.

  A request is answered or not: the loops below get the answers of the device to their requests, in
  order, and end where the Go loops do. What the tool prints and measures is left out.

  * `stage` -- the checks and the two images with their addresses;
  * `uploadBitstream`, `readHBM`, `runReconfig` -- the requests they send, and their result;
  * `swap_staging` -- **the regions are valid exactly when the sum of the bound check does not wrap**.
-/
import Frac.Client.Session
import Frac.Client.Swap
import Frac.Reconf.Validation

namespace Frac.Client.Swap

open Bits Reconf

/-! ## 1. The images -/

def roundUp (value align : Nat) : Nat := Pr.roundUp value align

def padCopy (data : List (BitVec 8)) (size : Nat) : List (BitVec 8) := Pr.padCopy data size

/-- The flags that the checks read. -/
structure Flags where
  orPath : String
  patternPath : String
  slot : Int
  hbmAddr : BitVec 64
  chunkSize : Int
  recvBuffer : Int
  cycles : Int

/-- What ends the tool before it connects: the check that fails, with the value it prints. -/
inductive Refusal where
  | usage
  | slot (got : Int)
  | hbmAddr (got : BitVec 64)
  | chunkSize (got : Int)
  | recvBuffer (got : Int)
  | cycles (got : Int)
  | unreadable (name path : String)
  | empty (name path : String)
  | above
  deriving DecidableEq

/-- `image`, with its bytes and its address. -/
structure StagedImage extends Image where
  data : List (BitVec 8)
  addr : BitVec 64
  deriving DecidableEq

/-- The files by path. -/
def Files : Type := String → Option (List (BitVec 8))

def loadImage (files : Files) (img : Image) (path : String) : Except Refusal StagedImage :=
  match files path with
  | none => .error (.unreadable img.name path)
  | some data =>
    if data.length = 0 then .error (.empty img.name path)
    else .ok { img with data := padCopy data (roundUp data.length 4), addr := 0 }

/-- The two addresses, and the check of the end; `int` and `uint64` drop what does not fit. -/
def place (hbmAddr : BitVec 64) (orImage patternImage : StagedImage) :
    Except Refusal (StagedImage × StagedImage) :=
  let orImage := { orImage with addr := hbmAddr }
  let patternImage := { patternImage with
    addr := orImage.addr + BitVec.ofNat 64 (roundUp orImage.data.length 0x10000) }
  if patternImage.addr + BitVec.ofNat 64 patternImage.data.length > 0x100000000 then .error .above
  else .ok (orImage, patternImage)

/-- **`main` up to the connection.** -/
def stage (files : Files) (f : Flags) : Except Refusal (StagedImage × StagedImage) :=
  if f.orPath = "" ∨ f.patternPath = "" then .error .usage
  else if f.slot < 0 ∨ slotCount ≤ f.slot then .error (.slot f.slot)
  else if f.hbmAddr &&& 0x1f ≠ 0 then .error (.hbmAddr f.hbmAddr)
  else if f.chunkSize ≤ 0 ∨ f.chunkSize > 256 ∨ f.chunkSize.tmod requestLineBytes ≠ 0 then
    .error (.chunkSize f.chunkSize)
  else if f.recvBuffer < requestLineBytes then .error (.recvBuffer f.recvBuffer)
  else if f.cycles < 1 then .error (.cycles f.cycles)
  else
    match loadImage files (image .or) f.orPath with
    | .error e => .error e
    | .ok orImage =>
      match loadImage files (image .pattern) f.patternPath with
      | .error e => .error e
      | .ok patternImage => place f.hbmAddr orImage patternImage

/-! ## 2. The requests -/

/-- What the device answers to a request: a line, or nothing before the deadline. -/
abbrev Reply : Type := Option (List (BitVec 8))

/-- The errors of the three functions. -/
inductive StagingError where
  | read (name : String)
  | writeStatus (label : String) (offset : Nat) (addr : BitVec 64) (response : List (BitVec 8))
  | reconfStatus (label : String) (response : List (BitVec 8))
  deriving DecidableEq

/-- The loop of `uploadBitstream`: the requests it sends, and the error that ends it. -/
def uploadChunks (hbmAddr : BitVec 64) (chunkSize : Nat) (slotID : BitVec 8) (label : String) :
    List (List (BitVec 8)) → Nat → List Reply → List (List (BitVec 8)) × Option StagingError
  | [], _, _ => ([], none)
  | chunk :: rest, offset, replies =>
    let addr := hbmAddr + BitVec.ofNat 64 offset
    let req := Pr.buildReconfRequest Pr.opWriteHBM slotID addr.toNat chunk.length (Pr.writePayload chunk)
    match replies.headD none with
    | none => ([req], some (.read s!"{label} WRITE_HBM[{offset / chunkSize}]"))
    | some response =>
      if !Pr.statusOK response then ([req], some (.writeStatus label offset addr response))
      else
        let (sent, e) := uploadChunks hbmAddr chunkSize slotID label rest (offset + chunk.length)
          replies.tail
        (req :: sent, e)

def uploadBitstream (hbmAddr : BitVec 64) (prData : List (BitVec 8)) (chunkSize : Nat)
    (slotID : BitVec 8) (label : String) (replies : List Reply) :
    List (List (BitVec 8)) × Option StagingError :=
  uploadChunks hbmAddr chunkSize slotID label (chunks chunkSize prData) 0 replies

/-- The loop of `readHBM` over its offsets: the requests it sends, and what it returns. -/
def readChunks (hbmAddr : BitVec 64) (size : Nat) : List Nat → List (BitVec 8) → List Reply →
    List (List (BitVec 8)) × List (BitVec 8) × Option StagingError
  | [], out, _ => ([], out, none)
  | offset :: rest, out, replies =>
    let want := min (size - offset) maxReadBytes
    let addr := hbmAddr + BitVec.ofNat 64 offset
    let req := Pr.buildReconfRequest Pr.opReadHBM 0 addr.toNat want []
    match replies.headD none with
    | none => ([req], out, some (.read s!"READ_HBM[{offset / maxReadBytes}]"))
    | some response =>
      let (sent, result) := readChunks hbmAddr size rest (out ++ response.take want) replies.tail
      (req :: sent, result)

def readHBM (hbmAddr : BitVec 64) (size : Nat) (replies : List Reply) :
    List (List (BitVec 8)) × List (BitVec 8) × Option StagingError :=
  readChunks hbmAddr size
    ((List.range ((size + (maxReadBytes - 1)) / maxReadBytes)).map (maxReadBytes * ·)) [] replies

def runReconfig (hbmAddr : BitVec 64) (prSize : Nat) (slotID : BitVec 8) (label : String)
    (reply : Reply) : List (BitVec 8) × Option StagingError :=
  (Pr.buildReconfRequest Pr.opReconfICAP slotID hbmAddr.toNat prSize [],
    match reply with
    | none => some (.read s!"{label} RECONF_ICAP")
    | some response =>
      if !Pr.statusOK response then some (.reconfStatus label response) else none)

/-! ## 3. What is asked of the regions -/

/-- The bytes an image takes in the memory. -/
def StagedImage.Covers (img : StagedImage) (x : Nat) : Prop :=
  img.addr.toNat ≤ x ∧ x < img.addr.toNat + img.data.length

/-- `slotID`. -/
def Flags.slotID (f : Flags) : BitVec 8 := BitVec.ofInt 8 f.slot

/-- A request the three functions send for an image, whatever is answered. -/
inductive Sends (f : Flags) (img : StagedImage) : List (BitVec 8) → Prop where
  | upload {req} (replies : List Reply) (h : req ∈ (uploadBitstream img.addr img.data f.chunkSize.toNat
      f.slotID img.name replies).1) : Sends f img req
  | read {req} (replies : List Reply) (h : req ∈ (readHBM img.addr img.data.length replies).1) :
      Sends f img req
  | reconf (reply : Reply) : Sends f img (runReconfig img.addr img.data.length f.slotID img.name reply).1

/-- `reconfctrl` takes the address of a request: the checks on its command line, the second. -/
def addressAccepted (req : List (BitVec 8)) : Bool :=
  let t := line (req.drop requestLineBytes)
  cmdAddrFits t && cmdAddrAligned t

/-- **The staged regions are valid.** -/
structure ValidStaging (f : Flags) (orImage patternImage : StagedImage) : Prop where
  aligned : ∀ img ∈ [orImage, patternImage], img.addr.toNat % 32 = 0
  disjoint : ∀ x, ¬ (orImage.Covers x ∧ patternImage.Covers x)
  within : ∀ img ∈ [orImage, patternImage], ∀ x, img.Covers x → x < 2 ^ 32
  accepted : ∀ img ∈ [orImage, patternImage], ∀ req, Sends f img req → addressAccepted req = true

/-! ## 4. The addresses of the requests -/

theorem accepted_request {opcode slotID : BitVec 8} {addr size : Nat} {payload : List (BitVec 8)}
    (hfits : addr < 2 ^ 33) (haligned : addr % 32 = 0) :
    addressAccepted (Pr.buildReconfRequest opcode slotID addr size payload) = true := by
  have hhead : (Pr.buildHeader (requestLineBytes + payload.length) reconfWorkloadID
      reqFlagSingle).length = requestLineBytes := length_header _ _ _ _
  have hline : line ((Pr.buildReconfRequest opcode slotID addr size payload).drop requestLineBytes) =
      line (Pr.buildReconfCommand opcode slotID addr size) := by
    rw [Pr.buildReconfRequest, List.drop_left' hhead]
    exact ofBytes_append (Pr.length_command _ _ _ _) _
  have haddr : (Command.ofLine (line (Pr.buildReconfCommand opcode slotID addr size))).addr = addr := by
    rw [Command.ofLine, Pr.command_addr, Nat.mod_eq_of_lt (by omega)]
  rw [addressAccepted, hline, Bool.and_eq_true, cmdAddrFits_iff, cmdAddrAligned_iff, haddr]
  exact ⟨hfits, haligned⟩

section Loops

variable {hbmAddr : BitVec 64} {slotID : BitVec 8} {label : String}

/-- The address of an offset that stays below the end. -/
theorem addr_toNat {offset : Nat} (h : hbmAddr.toNat + offset < 2 ^ 64) :
    (hbmAddr + BitVec.ofNat 64 offset).toNat = hbmAddr.toNat + offset := by
  rw [BitVec.toNat_add, BitVec.toNat_ofNat, Nat.mod_eq_of_lt (a := offset) (by omega), Nat.mod_eq_of_lt h]

theorem upload_accepted {chunkSize : Nat} (haligned : hbmAddr.toNat % 32 = 0)
    (hchunk : chunkSize % 64 = 0) (hpos : 0 < chunkSize) {bs : List (BitVec 8)} {offset : Nat}
    (hoffset : bs ≠ [] → offset % 64 = 0) (hfits : hbmAddr.toNat + offset + bs.length ≤ 2 ^ 33)
    (replies : List Reply) :
    ∀ req ∈ (uploadChunks hbmAddr chunkSize slotID label (chunks chunkSize bs) offset replies).1,
      addressAccepted req = true := by
  -- on the bytes still to be written, a chunk at a time
  induction hm : bs.length using Nat.strong_induction_on generalizing bs offset replies with
  | _ m ih =>
      subst hm
      by_cases hne : bs = []
      · subst hne
        rw [chunks_nil hpos, uploadChunks]
        exact fun req h => absurd h List.not_mem_nil
      have hlen := List.length_pos_iff.mpr hne
      have hlow := hoffset hne
      have hfirst : (bs.take chunkSize).length = min chunkSize bs.length := List.length_take
      have hrest : (bs.drop chunkSize).length = bs.length - chunkSize := List.length_drop
      have hhead : ∀ payload size, addressAccepted (Pr.buildReconfRequest Pr.opWriteHBM slotID
          (hbmAddr + BitVec.ofNat 64 offset).toNat size payload) = true := fun payload size => by
        rw [addr_toNat (by omega)]
        exact accepted_request (by omega) (by omega)
      rw [chunks_cons hpos hne, uploadChunks]
      intro req hreq
      simp only at hreq
      split at hreq
      · rw [List.mem_singleton.mp hreq]
        exact hhead _ _
      · split at hreq
        · rw [List.mem_singleton.mp hreq]
          exact hhead _ _
        · rcases List.mem_cons.mp hreq with rfl | hreq
          · exact hhead _ _
          · exact ih _ (by omega) (fun hne' => by have := List.length_pos_iff.mpr hne'; omega) (by omega)
              _ rfl req hreq

theorem read_accepted {size : Nat} (haligned : hbmAddr.toNat % 32 = 0)
    (hfits : hbmAddr.toNat + size ≤ 2 ^ 33) {offsets : List Nat}
    (ho : ∀ o ∈ offsets, o < size ∧ o % 64 = 0) (out : List (BitVec 8)) (replies : List Reply) :
    ∀ req ∈ (readChunks hbmAddr size offsets out replies).1, addressAccepted req = true := by
  induction offsets generalizing out replies with
  | nil => exact fun req h => absurd h List.not_mem_nil
  | cons o offsets ih =>
      obtain ⟨hlt, hmod⟩ := ho o List.mem_cons_self
      have hhead : ∀ want, addressAccepted (Pr.buildReconfRequest Pr.opReadHBM 0
          (hbmAddr + BitVec.ofNat 64 o).toNat want []) = true := fun want => by
        rw [addr_toNat (by omega)]
        exact accepted_request (by omega) (by omega)
      rw [readChunks]
      intro req hreq
      simp only at hreq
      split at hreq
      · rw [List.mem_singleton.mp hreq]
        exact hhead _
      · rcases List.mem_cons.mp hreq with rfl | hreq
        · exact hhead _
        · exact ih (fun o' h' => ho o' (List.mem_cons_of_mem _ h')) _ _ req hreq

end Loops

/-- Every request for an image that lies in the memory of the controller. -/
theorem sends_accepted {f : Flags} {img : StagedImage} (haligned : img.addr.toNat % 32 = 0)
    (hfits : img.addr.toNat + img.data.length ≤ 2 ^ 33) (hne : 0 < img.data.length)
    (hchunk : f.chunkSize.toNat % 64 = 0) (hpos : 0 < f.chunkSize.toNat) {req : List (BitVec 8)}
    (h : Sends f img req) : addressAccepted req = true := by
  cases h with
  | upload replies h =>
      exact upload_accepted haligned hchunk hpos (fun _ => rfl) (by omega) replies req h
  | read replies h =>
      refine read_accepted haligned hfits (fun o ho => ?_) [] replies req h
      obtain ⟨i, hi, rfl⟩ := List.mem_map.mp ho
      have hlt : i < (img.data.length + 63) / 64 := List.mem_range.mp hi
      show 64 * i < _ ∧ 64 * i % 64 = 0
      omega
  | reconf reply => exact accepted_request (by omega) haligned

/-! ## 5. The regions -/

theorem roundUp_bounds (value : Nat) {align : Nat} (h : 0 < align) :
    value ≤ roundUp value align ∧ roundUp value align < value + align ∧
      roundUp value align % align = 0 := by
  have hmod := Nat.mod_lt value h
  unfold roundUp Pr.roundUp
  rw [if_neg (Nat.ne_of_gt h)]
  split
  · rename_i hzero
    exact ⟨Nat.le_refl _, by omega, hzero⟩
  · refine ⟨by omega, by omega, ?_⟩
    have hsum : value + align - value % align = align * (value / align + 1) := by
      have := Nat.div_add_mod value align
      rw [Nat.mul_add, Nat.mul_one]
      omega
    rw [hsum, Nat.mul_mod_right]

/-- An image that is loaded is not empty. -/
theorem loaded_pos {files : Files} {img : Image} {path : String} {r : StagedImage}
    (h : loadImage files img path = .ok r) : 0 < r.data.length := by
  unfold loadImage at h
  split at h
  · cases h
  · rename_i data _
    split at h
    · cases h
    · rename_i hne
      cases h
      have hle := (roundUp_bounds data.length (show 0 < 4 by decide)).1
      show 0 < (Pr.padCopy data _).length
      rw [Pr.padCopy, List.length_append, List.length_take, List.length_replicate]
      omega

/-- **What the checks of `main` leave.** -/
structure Checked (f : Flags) (orImage patternImage : StagedImage) : Prop where
  aligned : f.hbmAddr.toNat % 32 = 0
  chunk : f.chunkSize.toNat % 64 = 0 ∧ 0 < f.chunkSize.toNat
  orPos : 0 < orImage.data.length
  patternPos : 0 < patternImage.data.length
  orAddr : orImage.addr = f.hbmAddr
  patternAddr : patternImage.addr.toNat =
    (f.hbmAddr.toNat + roundUp orImage.data.length 0x10000) % 2 ^ 64
  bound : (f.hbmAddr.toNat + roundUp orImage.data.length 0x10000 + patternImage.data.length) % 2 ^ 64 ≤
    2 ^ 32

theorem stage_checked {files : Files} {f : Flags} {orImage patternImage : StagedImage}
    (h : stage files f = .ok (orImage, patternImage)) : Checked f orImage patternImage := by
  unfold stage at h
  split_ifs at h with h1 h2 h3 h4 h5 h6
  split at h
  · cases h
  rename_i r hor
  split at h
  · cases h
  rename_i q hpattern
  unfold place at h
  simp only at h
  split_ifs at h with hbound
  obtain ⟨rfl, rfl⟩ := Prod.mk.inj (Except.ok.inj h)
  have haddr : (f.hbmAddr + BitVec.ofNat 64 (roundUp r.data.length 0x10000)).toNat =
      (f.hbmAddr.toNat + roundUp r.data.length 0x10000) % 2 ^ 64 := by
    rw [BitVec.toNat_add, BitVec.toNat_ofNat, Nat.add_mod_mod]
  have hor' : 0 < r.data.length := loaded_pos hor
  have hpattern' : 0 < q.data.length := loaded_pos hpattern
  refine ⟨?_, ?_, hor', hpattern', rfl, haddr, ?_⟩
  · have hand := congrArg BitVec.toNat (Decidable.not_not.mp h3)
    rw [BitVec.toNat_and, show (0x1f : BitVec 64).toNat = 2 ^ 5 - 1 from rfl,
      Nat.and_two_pow_sub_one_eq_mod] at hand
    exact hand
  · rw [not_or, not_or, not_not] at h4
    obtain ⟨hpos, -, hmod⟩ := h4
    have hnat : (f.chunkSize.toNat : Int) = f.chunkSize := Int.toNat_of_nonneg (by omega)
    rw [← hnat, requestLineBytes, ← Int.ofNat_tmod] at hmod
    exact ⟨Int.ofNat_eq_zero.mp hmod, by omega⟩
  · rw [gt_iff_lt, BitVec.lt_def, BitVec.toNat_add, haddr, BitVec.toNat_ofNat, Nat.add_mod_mod,
      Nat.mod_add_mod] at hbound
    exact Nat.le_of_not_lt hbound

/-- **The staged regions are valid exactly when the sum that the bound check makes does not wrap.** For
    every address and every pair of images that pass the checks of `main`. -/
theorem swap_staging {files : Files} {f : Flags} {orImage patternImage : StagedImage}
    (h : stage files f = .ok (orImage, patternImage)) :
    ValidStaging f orImage patternImage ↔
      f.hbmAddr.toNat + roundUp orImage.data.length 0x10000 + patternImage.data.length < 2 ^ 64 := by
  obtain ⟨haligned, ⟨hchunk, hpos⟩, hor, hpattern, horAddr, hpatternAddr, hbound⟩ := stage_checked h
  obtain ⟨hle, hlt, hround⟩ := roundUp_bounds orImage.data.length (show 0 < 0x10000 by decide)
  constructor
  · -- the last byte of each image is below `2 ^ 32`, so nothing has wrapped
    intro hvalid
    have h1 := hvalid.within orImage (by simp) (orImage.addr.toNat + (orImage.data.length - 1))
      ⟨by omega, by omega⟩
    have h2 := hvalid.within patternImage (by simp)
      (patternImage.addr.toNat + (patternImage.data.length - 1)) ⟨by omega, by omega⟩
    rw [horAddr] at h1
    rw [hpatternAddr, Nat.mod_eq_of_lt (by omega)] at h2
    omega
  · intro hsum
    rw [Nat.mod_eq_of_lt hsum] at hbound
    rw [Nat.mod_eq_of_lt (by omega)] at hpatternAddr
    have horNat : orImage.addr.toNat = f.hbmAddr.toNat := by rw [horAddr]
    have hboth : ∀ img ∈ [orImage, patternImage], img.addr.toNat % 32 = 0 ∧
        img.addr.toNat + img.data.length ≤ 2 ^ 32 ∧ 0 < img.data.length := by
      intro img himg
      rcases List.mem_cons.mp himg with rfl | himg
      · omega
      · rw [List.mem_singleton.mp himg]
        omega
    refine ⟨fun img himg => (hboth img himg).1, fun x hx => ?_, fun img himg x hx => ?_,
      fun img himg req hreq => ?_⟩
    · have h1 := hx.1.2
      have h2 := hx.2.1
      omega
    · have h1 := (hboth img himg).2.1
      have h2 := hx.2
      omega
    · obtain ⟨h1, h2, h3⟩ := hboth img himg
      exact sends_accepted h1 (by omega) h3 hchunk hpos hreq

/-- Two files of three bytes. -/
def sampleFiles : Files := fun path => if path = "or.bin" ∨ path = "pattern.bin" then some [1, 2, 3] else none

/-- The flags with their defaults, but for the address. -/
def sampleFlags (hbmAddr : BitVec 64) : Flags := ⟨"or.bin", "pattern.bin", 0, hbmAddr, 256, 2048, 1⟩

/-- An image of the files above. -/
def sampleImage (slot : Slots.EchoSlot) (addr : BitVec 64) : StagedImage :=
  { image slot with data := [1, 2, 3, 0], addr := addr }

/-- At the default address. -/
theorem swap_staging_default :
    stage sampleFiles (sampleFlags 0x4000) =
      .ok (sampleImage .or 0x4000, sampleImage .pattern 0x14000) ∧
    ValidStaging (sampleFlags 0x4000) (sampleImage .or 0x4000) (sampleImage .pattern 0x14000) := by
  have h : stage sampleFiles (sampleFlags 0x4000) =
      .ok (sampleImage .or 0x4000, sampleImage .pattern 0x14000) := by rfl
  exact ⟨h, (swap_staging h).mpr (by decide)⟩

/-- **At the top of the range the sum wraps**: the check passes, and `or_slot` is staged far above the
    memory, where every request is refused. -/
theorem swap_staging_wraps :
    stage sampleFiles (sampleFlags 0xFFFFFFFFFFFF0000) =
      .ok (sampleImage .or 0xFFFFFFFFFFFF0000, sampleImage .pattern 0) ∧
    ¬ ValidStaging (sampleFlags 0xFFFFFFFFFFFF0000) (sampleImage .or 0xFFFFFFFFFFFF0000)
      (sampleImage .pattern 0) := by
  refine ⟨by rfl, fun h => ?_⟩
  have hreconf := h.accepted (sampleImage .or 0xFFFFFFFFFFFF0000) (by simp) _ (.reconf none)
  exact absurd hreconf (by decide +kernel)

end Frac.Client.Swap
