/-
  File:      Frac/Client/Upload.lean
  Subject:   Staging a bitstream, reading it back and starting it, with `sw/pr`: what the three client
             functions leave in the device and return, for every length.

  * `ctrlRequest` -- the bytes of `buildReconfRequest` as a controller request in one packet;
  * `write_request`, `read_request`, `reconf_request` -- one exchange of the client;
  * `uploadChunks_stores`, `readChunks_fetches` -- **the loops over the chunks**;
  * `staged_bitstream` -- upload, read back and reconfigure compose.
-/
import Frac.Client.Session
import Frac.PktLogic.Segments

namespace Frac.Client

open Bits Clocked PktLogic Reassembly Reconf

variable {n slotCount : Nat}

/-! ## 1. Requests as packets -/

/-- The fields of a command of the client. -/
theorem command_ofLine (opcode slotID : BitVec 8) (hbmAddr size : Nat) :
    Command.ofLine (line (Pr.buildReconfCommand opcode slotID hbmAddr size)) =
      ⟨opcode.toNat, slotID.toNat, hbmAddr % 2 ^ 64, size % 2 ^ 64⟩ := by
  rw [Command.ofLine, Pr.command_opcode, Pr.command_slot, Pr.command_addr, Pr.command_size]

/-- A valid command is carried out. -/
theorem executes_valid {t : BitVec 512} {op : BitVec 8} (hop : (Command.ofLine t).opcode = op.toNat)
    (h : (Command.ofLine t).Valid slotCount) : Executes slotCount t op where
  opcode := (cmdOpcode_eq_iff t op).mpr hop
  known := by
    have hknown := h.opcode
    rw [hop] at hknown
    exact hknown.imp BitVec.eq_of_toNat_eq (Or.imp BitVec.eq_of_toNat_eq BitVec.eq_of_toNat_eq)
  addrFits := (cmdAddrFits_iff t).mpr h.fits
  addrAligned := (cmdAddrAligned_iff t).mpr h.aligned
  sizeNonzero := (cmdSizeNonzero_iff t).mpr h.sized
  readSize e := (cmdReadSizeOk_iff t).mpr (h.readSize (by rw [hop, e]; rfl))
  reconfSize e := (cmdReconfSizeOk_iff t).mpr (h.reconfSize (by rw [hop, e]; rfl))
  slotOk e := (cmdSlotOk_iff t).mpr (h.slot (by rw [hop, e]; rfl))

/-- **A request of the client as a controller request in one packet**: whole lines, as many as its
    command asks for, and at most the 4096 bytes of a packet. -/
def ctrlRequest (session : BitVec 16) (opcode slotID : BitVec 8) (hbmAddr size : Nat)
    (payload : List (BitVec 8)) (hshort : payload.length ≤ 62 * 64)
    (hsized : (lines 64 payload).length =
      if opcode.toNat = 1 then (size % 2 ^ 64 + 63) / 64 else 0) : CtrlRequest where
  session := session
  command := line (Pr.buildReconfCommand opcode slotID hbmAddr size)
  payload := lines 64 payload
  packets := [reconfHeader (lines 64 payload).length ::
    line (Pr.buildReconfCommand opcode slotID hbmAddr size) :: lines 64 payload]
  sized := by rw [command_ofLine]; exact hsized
  cut := List.flatten_singleton
  whole p hp := by
    rw [List.mem_singleton.mp hp, List.length_cons, List.length_cons, length_lines]
    omega

section Request

variable {session : BitVec 16} {opcode slotID : BitVec 8} {hbmAddr size : Nat}
  {payload : List (BitVec 8)}

theorem request_lines (hwhole : payload.length % 64 = 0) :
    lines 64 (Pr.buildReconfRequest opcode slotID hbmAddr size payload) =
      reconfHeader (lines 64 payload).length ::
        line (Pr.buildReconfCommand opcode slotID hbmAddr size) :: lines 64 payload := by
  have hhead : (Pr.buildHeader (requestLineBytes + payload.length) reconfWorkloadID
      reqFlagSingle).length = 64 := length_header _ _ _ _
  have hcmd : (Pr.buildReconfCommand opcode slotID hbmAddr size).length = 64 :=
    Pr.length_command _ _ _ _
  have hcount : 64 * (lines 64 payload).length = payload.length := by
    rw [length_lines]
    omega
  rw [Pr.buildReconfRequest, lines_append (by decide) hhead, lines_append (by decide) hcmd,
    reconfHeader, hcount]
  rfl

theorem length_request :
    (Pr.buildReconfRequest opcode slotID hbmAddr size payload).length = 128 + payload.length := by
  have hhead : (Pr.buildHeader (requestLineBytes + payload.length) reconfWorkloadID
      reqFlagSingle).length = 64 := length_header _ _ _ _
  have hcmd : (Pr.buildReconfCommand opcode slotID hbmAddr size).length = 64 :=
    Pr.length_command _ _ _ _
  rw [Pr.buildReconfRequest, List.length_append, List.length_append, hhead, hcmd]
  omega

/-- The lines of the packet are the lines of the controller request. -/
theorem packetOf_request {hshort : payload.length ≤ 62 * 64}
    {hsized : (lines 64 payload).length =
      if opcode.toNat = 1 then (size % 2 ^ 64 + 63) / 64 else 0}
    (hwhole : payload.length % 64 = 0) :
    packetOf session (Pr.buildReconfRequest opcode slotID hbmAddr size payload) =
      (ctrlRequest session opcode slotID hbmAddr size payload hshort hsized).lines := by
  have hlen : 128 + payload.length = 64 * ((lines 64 payload).length + 1 + 1) := by
    rw [length_lines]
    omega
  rw [packetOf, request_lines hwhole, length_request, hlen, CtrlRequest.lines]
  exact (List.flatMap_singleton ..).symm

end Request

/-! ## 2. The commands of the client -/

section Commands

variable {slotID opcode : BitVec 8} {hbmAddr size : Nat}

/-! The three commands of the client pass the checks. -/

theorem write_valid {chunk : List (BitVec 8)} (haligned : hbmAddr % 32 = 0) (hfits : hbmAddr < 2 ^ 33)
    (hne : chunk ≠ []) : Command.Valid slotCount
      ⟨Pr.opWriteHBM.toNat, slotID.toNat, hbmAddr, chunk.length⟩ where
  opcode := Or.inl rfl
  fits := hfits
  aligned := haligned
  sized e := hne (List.length_eq_zero_iff.mp e)
  readSize e := by cases e
  reconfSize e := by cases e
  slot e := by cases e

theorem read_valid (haligned : hbmAddr % 32 = 0) (hfits : hbmAddr < 2 ^ 33) (hpos : 0 < size)
    (hshort : size ≤ 64) : Command.Valid slotCount
      ⟨Pr.opReadHBM.toNat, slotID.toNat, hbmAddr, size⟩ where
  opcode := Or.inr (Or.inl rfl)
  fits := hfits
  aligned := haligned
  sized := Nat.ne_of_gt hpos
  readSize _ := hshort
  reconfSize e := by cases e
  slot e := by cases e

theorem reconf_valid (haligned : hbmAddr % 32 = 0) (hfits : hbmAddr < 2 ^ 33) (hpos : 0 < size)
    (hwords : size % 4 = 0) (hslot : slotID.toNat < slotCount) : Command.Valid slotCount
      ⟨Pr.opReconfICAP.toNat, slotID.toNat, hbmAddr, size⟩ where
  opcode := Or.inr (Or.inr rfl)
  fits := hfits
  aligned := haligned
  sized := Nat.ne_of_gt hpos
  readSize e := by cases e
  reconfSize _ := hwords
  slot _ := hslot

/-- The address of a command of the client, as the memory sees it. -/
theorem command_setWidth (haddr : hbmAddr < 2 ^ 64) :
    (cmdAddr (line (Pr.buildReconfCommand opcode slotID hbmAddr size))).setWidth 33 =
      BitVec.ofNat 33 hbmAddr := by
  apply BitVec.eq_of_toNat_eq
  rw [BitVec.toNat_setWidth, cmdAddr_toNat, command_ofLine, BitVec.toNat_ofNat]
  exact congrArg (· % 2 ^ 33) (Nat.mod_eq_of_lt haddr)

theorem command_toNat (hsize : size < 2 ^ 64) :
    (cmdSize (line (Pr.buildReconfCommand opcode slotID hbmAddr size))).toNat = size := by
  rw [cmdSize_toNat, command_ofLine]
  exact Nat.mod_eq_of_lt hsize

/-- A read and a reconfiguration have no payload. -/
theorem no_payload (hop : opcode.toNat ≠ 1) (m : Nat) :
    (lines 64 []).length = if opcode.toNat = 1 then m else 0 := by
  rw [if_neg hop, lines_nil (by decide)]
  rfl

end Commands

/-! ## 3. The bytes staged and read back -/

section Bytes

variable {hbmAddr size : Nat}

/-- The payload of a write: the chunk, and zeros to the end of its last line. -/
theorem writePayload_eq (chunk : List (BitVec 8)) :
    Pr.writePayload chunk =
      chunk ++ List.replicate (64 * ((chunk.length + 63) / 64) - chunk.length) 0 := by
  unfold Pr.writePayload Pr.padCopy Pr.roundUp requestLineBytes
  split
  · rename_i hmod
    simp only [if_false, show ¬ (64 = 0) by decide]
    rw [List.take_of_length_le (by omega)]
    congr 2
    omega
  · rename_i hmod
    rw [show 64 * ((chunk.length + 63) / 64) - chunk.length = 0 by omega]
    exact (List.append_nil chunk).symm

theorem length_writePayload (chunk : List (BitVec 8)) :
    (Pr.writePayload chunk).length = 64 * ((chunk.length + 63) / 64) := by
  rw [writePayload_eq, List.length_append, List.length_replicate]
  omega

theorem write_lines (chunk : List (BitVec 8)) : (lines 64 (Pr.writePayload chunk)).length =
    if Pr.opWriteHBM.toNat = 1 then (chunk.length + 63) / 64 else 0 := by
  rw [length_lines, length_writePayload, if_pos (by decide)]
  omega

/-- The bytes of the payload lines are those of the chunk. -/
theorem payload_writePayload (chunk : List (BitVec 8)) {i : Nat} (hi : i < chunk.length) :
    Reconf.payload (lines 64 (Pr.writePayload chunk)) i = chunk.getD i 0 := by
  have hlen := length_writePayload chunk
  rw [Reconf.payload, byteAt_lines _ (Nat.mod_lt i (by decide)) (by omega), Nat.div_add_mod,
    writePayload_eq, List.getD_append _ _ _ _ hi]

/-- The line of ERR_OK is the status the client looks for. -/
theorem statusOK_ok : Pr.statusOK (toBytes 64 (Resp.status .ok).tdata) = true := by decide +kernel

/-- The first bytes of a line that holds what is stored. -/
theorem readBytes_take {mem : Mem 33} {d : BitVec 512} (hshort : size ≤ 64)
    (h : ReadBytes mem (BitVec.ofNat 33 hbmAddr) size d) :
    (toBytes 64 d).take size = (List.range size).map fun i => mem (BitVec.ofNat 33 (hbmAddr + i)) := by
  rw [toBytes, ← List.map_take, List.take_range, Nat.min_eq_left hshort]
  refine List.map_congr_left fun i hi => ?_
  have hlt := List.mem_range.mp hi
  rw [h i (by omega), if_pos hlt, BitVec.ofNat_add]

/-- The bytes of the memory from `hbmAddr` on. -/
def stored (mem : Mem 33) (hbmAddr size : Nat) : List (BitVec 8) :=
  (List.range size).map fun i => mem (BitVec.ofNat 33 (hbmAddr + i))

theorem length_stored (mem : Mem 33) (hbmAddr size : Nat) : (stored mem hbmAddr size).length = size := by
  rw [stored, List.length_map, List.length_range]

theorem stored_slice (mem : Mem 33) (hbmAddr size offset k : Nat) :
    ((stored mem hbmAddr size).drop offset).take k = stored mem (hbmAddr + offset) (min (size - offset) k) := by
  apply List.ext_getElem?
  intro i
  simp only [stored, List.getElem?_take, List.getElem?_drop, List.getElem?_map]
  by_cases hi : i < min (size - offset) k
  · rw [if_pos (by omega), List.getElem?_range (by omega), List.getElem?_range hi, Option.map_some,
      Option.map_some, Nat.add_assoc]
  · rw [List.getElem?_eq_none (l := List.range (min (size - offset) k))
      (by rw [List.length_range]; omega)]
    split
    · rw [List.getElem?_eq_none (by rw [List.length_range]; omega)]
      rfl
    · rfl

/-- The offsets of `readHBM`. -/
theorem offsets_below (size : Nat) :
    ∀ o ∈ (List.range ((size + (maxReadBytes - 1)) / maxReadBytes)).map (maxReadBytes * ·),
      o < size ∧ o % 64 = 0 := by
  intro o ho
  obtain ⟨i, hi, rfl⟩ := List.mem_map.mp ho
  have hlt : i < (size + 63) / 64 := List.mem_range.mp hi
  show 64 * i < size ∧ 64 * i % 64 = 0
  omega

/-- What stands behind the offsets, one after the other, is the whole. -/
theorem offsets_flatMap {bs : List (BitVec 8)} {size : Nat} (hlen : bs.length = size) :
    (((List.range ((size + (maxReadBytes - 1)) / maxReadBytes)).map (maxReadBytes * ·)).flatMap
      fun o => (bs.drop o).take 64) = bs := by
  have hall := flatten_chunks (k := 64) (by decide) bs
  rw [chunks, ← List.flatMap_def, hlen] at hall
  rw [List.flatMap_map]
  exact hall

namespace Pr

/-- The size `main` stages a bitstream with. -/
def prSize (bitstream : List (BitVec 8)) : Nat := roundUp bitstream.length 4

/-- The bytes `main` stages. -/
def prData (bitstream : List (BitVec 8)) : List (BitVec 8) := padCopy bitstream (prSize bitstream)

theorem prSize_words (bitstream : List (BitVec 8)) :
    prSize bitstream % 4 = 0 ∧ bitstream.length ≤ prSize bitstream := by
  unfold prSize roundUp
  rw [if_neg (by decide)]
  split <;> omega

theorem prData_eq (bitstream : List (BitVec 8)) :
    prData bitstream =
      bitstream ++ List.replicate (prSize bitstream - bitstream.length) 0 := by
  rw [prData, padCopy, List.take_of_length_le (prSize_words bitstream).2]

theorem length_prData (bitstream : List (BitVec 8)) :
    (prData bitstream).length = prSize bitstream := by
  rw [prData_eq, List.length_append, List.length_replicate]
  have hle := (prSize_words bitstream).2
  omega

end Pr

/-- The little-endian words of a string of bytes as the port sees them, `tlast` on the last. -/
def icapWords (bs : List (BitVec 8)) : List (BitVec 32 × Bool) :=
  (List.range (bs.length / 4)).map fun j =>
    (ofBytes 4 (bs.drop (4 * j)), decide (j + 1 = bs.length / 4))

/-- The bytes a store leaves in its range. -/
theorem stored_store {mem : Mem 33} {bs : List (BitVec 8)} (hfits : hbmAddr + bs.length ≤ 2 ^ 33) :
    stored (mem.store (BitVec.ofNat 33 hbmAddr) (fun i => bs.getD i 0) bs.length) hbmAddr bs.length =
      bs := by
  apply List.ext_getElem?
  intro i
  rw [stored, List.getElem?_map]
  by_cases hi : i < bs.length
  · rw [List.getElem?_range hi, Option.map_some, BitVec.ofNat_add,
      Mem.store_at _ _ _ _ _ hi fun j h1 h2 => ?_, List.getD_eq_getElem _ _ hi,
      List.getElem?_eq_getElem hi]
    -- no two addresses of the range are the same
    intro e
    have hnat := congrArg BitVec.toNat e
    rw [← BitVec.ofNat_add, ← BitVec.ofNat_add, BitVec.toNat_ofNat, BitVec.toNat_ofNat,
      Nat.mod_eq_of_lt (by omega), Nat.mod_eq_of_lt (by omega)] at hnat
    omega
  · rw [List.getElem?_eq_none (by rw [List.length_range]; omega),
      List.getElem?_eq_none (Nat.le_of_not_lt hi)]
    rfl

/-- The words read from a stored string are the words of the string. -/
theorem words_stored {mem : Mem 33} {bs : List (BitVec 8)} {size : Nat} (hlen : bs.length = size)
    (h : stored mem hbmAddr size = bs) :
    (List.range (size / 4)).map (fun j =>
      (mem.beat (BitVec.ofNat 33 (hbmAddr + 4 * j)) 4, decide (j + 1 = size / 4))) = icapWords bs := by
  rw [icapWords, hlen]
  refine List.map_congr_left fun j hj => ?_
  have hlt := List.mem_range.mp hj
  refine Prod.ext (eq_of_byteAt fun t ht => ?_) rfl
  have hbyte : bs[4 * j + t]? = some (mem (BitVec.ofNat 33 (hbmAddr + (4 * j + t)))) := by
    rw [← h, stored, List.getElem?_map, List.getElem?_range (by omega)]
    rfl
  rw [Mem.byteAt_beat _ _ ht, byteAt_ofBytes _ ht, List.getD_eq_getElem?_getD, List.getElem?_drop, hbyte,
    ← BitVec.ofNat_add, Nat.add_assoc]
  rfl

end Bytes

/-! ## 4. One exchange of the client -/

section Run

variable [FifoKind]

/-- **A window with enough time** for a request of `m` lines whose command is about `size` bytes: the
    lines arrive, and then nothing is held back for as many edges as the command can take. -/
def Patient (m size : Nat) (w : List FeedIn) : Prop :=
  ∃ is js, w = is ++ js ∧ m ≤ is.countP (·.send) ∧
    10 * ((size + 63) / 64) + size + 12 + FifoKind.latency ≤ js.countP (·.pins.willing)

section Exchange

variable {f : Feed n slotCount → FeedIn → FeedIn} {c c' : Conn n slotCount} {name : String}
  {request response : List (BitVec 8)}

/-- A response that is returned has left the device. -/
theorem send_ok (h : c.sendBy f name request = (.ok response, c')) :
    (c.outcomeBy f request).answered ≠ [] ∧ c' = c.nextBy f request ∧
      ∀ x r, (c.outcomeBy f request).answered = [(x, r)] → response = toBytes 64 r.tdata := by
  rw [Conn.sendBy] at h
  obtain ⟨hresp, rfl⟩ := Prod.mk.inj h
  cases hans : (c.outcomeBy f request).answered with
  | nil =>
      rw [hans] at hresp
      cases hresp
  | cons x xs =>
      rw [hans] at hresp
      refine ⟨List.cons_ne_nil _ _, rfl, fun y r e => ?_⟩
      rw [(List.cons.inj e).1] at hresp
      cases hresp
      rfl

/-- A response that has left the device is returned. -/
theorem send_answered (name : String) (h : (c.outcomeBy f request).answered ≠ []) :
    ∃ response, c.sendBy f name request = (.ok response, c.nextBy f request) := by
  rw [Conn.sendBy]
  cases hans : (c.outcomeBy f request).answered with
  | nil => exact absurd hans h
  | cons x xs => exact ⟨_, rfl⟩

end Exchange

section Operations

variable {c c' : Conn n slotCount} {name : String} {slotID opcode : BitVec 8} {hbmAddr size : Nat}
  {payload response : List (BitVec 8)}

/-- **The packet of a valid request** is exact, is what the device is sent, and its command is carried
    out. -/
theorem request_packet (slotCount : Nat) (session : BitVec 16) (slotID : BitVec 8)
    (haddr : hbmAddr < 2 ^ 64) (hsize : size < 2 ^ 64)
    (hv : Command.Valid slotCount ⟨opcode.toNat, slotID.toNat, hbmAddr, size⟩)
    (hshort : payload.length ≤ 62 * 64) (hwhole : payload.length % 64 = 0)
    (hlines : (lines 64 payload).length = if opcode.toNat = 1 then (size + 63) / 64 else 0) :
    ∃ p : Packet slotCount, p.Exact ∧ p.session = session ∧
      p.command = line (Pr.buildReconfCommand opcode slotID hbmAddr size) ∧
      p.extra = lines 64 payload ∧
      packetOf session (Pr.buildReconfRequest opcode slotID hbmAddr size payload) = p.lines ∧
      Executes slotCount p.command opcode := by
  have hsized : (lines 64 payload).length =
      if opcode.toNat = 1 then (size % 2 ^ 64 + 63) / 64 else 0 := by
    rw [Nat.mod_eq_of_lt hsize]
    exact hlines
  have hof := command_ofLine opcode slotID hbmAddr size
  rw [Nat.mod_eq_of_lt haddr, Nat.mod_eq_of_lt hsize] at hof
  have hvalid : (Command.ofLine (line (Pr.buildReconfCommand opcode slotID hbmAddr size))).Valid
      slotCount := by
    rw [hof]
    exact hv
  have hsingle : (ctrlRequest session opcode slotID hbmAddr size payload hshort hsized).packets.length
      = 1 := rfl
  refine ⟨_, packet_exact slotCount hsingle ?_, rfl, rfl, rfl,
    (packetOf_request hwhole).trans (packet_lines slotCount hsingle).symm,
    executes_valid (congrArg Command.opcode hof) hvalid⟩
  -- a payload line is there for a write only
  by_cases hop : opcode.toNat = 1
  · refine Or.inr ((verdict_valid hvalid).trans ?_)
    rw [hof]
    exact if_pos hop
  · rw [if_neg hop] at hlines
    exact Or.inl (List.length_eq_zero_iff.mp hlines)

/-- With enough time, a valid request is answered. -/
theorem request_answered {f : Feed n slotCount → FeedIn → FeedIn} (hf : MemAnswers f)
    (slotID : BitVec 8) (hk : c.kernel.Idle) (haddr : hbmAddr < 2 ^ 64) (hsize : size < 2 ^ 64)
    (hv : Command.Valid slotCount ⟨opcode.toNat, slotID.toNat, hbmAddr, size⟩)
    (hshort : payload.length ≤ 62 * 64) (hwhole : payload.length % 64 = 0)
    (hlines : (lines 64 payload).length = if opcode.toNat = 1 then (size + 63) / 64 else 0)
    (hw : Patient ((lines 64 payload).length + 2) size (c.windows.headD [])) :
    (c.outcomeBy f (Pr.buildReconfRequest opcode slotID hbmAddr size payload)).answered ≠ [] := by
  obtain ⟨p, hx, -, hcmd, hextra, hpacket, -⟩ :=
    request_packet slotCount c.session slotID haddr hsize hv hshort hwhole hlines
  rw [Conn.outcomeBy, hpacket]
  refine exchange_timely hx hk hf ?_
  obtain ⟨is, js, hw, hsent, henough⟩ := hw
  refine ⟨is, js, hw, ?_, ?_⟩
  · rw [← hpacket, packetOf, request_lines hwhole, length_packet, List.length_map, List.length_cons,
      List.length_cons]
    exact hsent
  · rw [hcmd, command_ofLine, Command.rankBound, Nat.mod_eq_of_lt hsize]
    omega

/-- **A write that is answered** is answered OK, and the memory holds the chunk. -/
theorem write_request {chunk : List (BitVec 8)} (hk : c.kernel.Idle) (haligned : hbmAddr % 32 = 0)
    (hfits : hbmAddr < 2 ^ 33) (hne : chunk ≠ []) (hshort : chunk.length ≤ 256)
    (h : c.sendAndReadStatus name (Pr.buildReconfRequest Pr.opWriteHBM slotID hbmAddr chunk.length
      (Pr.writePayload chunk)) = (.ok response, c')) :
    Pr.statusOK response = true ∧ c'.kernel.Idle ∧ c'.windows = c.windows.tail ∧
      c'.kernel.sys.mem =
        c.kernel.sys.mem.store (BitVec.ofNat 33 hbmAddr) (fun i => chunk.getD i 0) chunk.length := by
  have hlen := length_writePayload chunk
  obtain ⟨p, hx, -, hcmd, hextra, hpacket, hexec⟩ :=
    request_packet slotCount c.session slotID (by omega) (by omega) (write_valid haligned hfits hne)
      (by omega) (by omega) (write_lines chunk)
  obtain ⟨hans, rfl, hresp⟩ := send_ok (f := Feed.served) h
  have hrun : c.outcome (Pr.buildReconfRequest Pr.opWriteHBM slotID hbmAddr chunk.length
      (Pr.writePayload chunk)) = run Feed.step (Feed.start c.kernel p.lines) (c.windows.headD []) := by
    rw [Conn.outcome, hpacket]
  obtain ⟨hone, hidle, hmem⟩ := write_exchange hx hk hexec hrun hans
  refine ⟨?_, hidle, rfl, ?_⟩
  · rw [hresp _ _ hone]
    exact statusOK_ok
  · rw [hcmd, command_setWidth (by omega), command_toNat (by omega), hextra] at hmem
    exact hmem.trans (Mem.store_congr _ _ _ fun i hi => payload_writePayload chunk hi)

section Read

variable {f : Feed n slotCount → FeedIn → FeedIn} (hf : MemAnswers f) (hk : c.kernel.Idle)
  (haligned : hbmAddr % 32 = 0) (hfits : hbmAddr < 2 ^ 33) (hpos : 0 < size) (hshort : size ≤ 64)
include hf hk haligned hfits hpos hshort

/-- **A read that is answered**, over a memory that may fail it, returns the bytes stored or the status
    of a beat that failed. -/
theorem read_request_by {B : Beat → Prop}
    (hB : ∀ i ∈ c.windows.headD [], ∀ y : Feed n slotCount,
      BeatsMeet B y.kernel.sys (y.pinsAt (f y i)))
    (h : c.sendBy f name (Pr.buildReconfRequest Pr.opReadHBM slotID hbmAddr size []) =
      (.ok response, c')) :
    c'.kernel.Idle ∧ c'.windows = c.windows.tail ∧ c'.kernel.sys.mem = c.kernel.sys.mem ∧
      (response.take size =
          (List.range size).map (fun i => c.kernel.sys.mem (BitVec.ofNat 33 (hbmAddr + i))) ∨
        ∃ b e, B b ∧ b.error = some e ∧ response = toBytes 64 (Resp.status e).tdata) := by
  obtain ⟨p, hx, -, hcmd, -, hpacket, hexec⟩ :=
    request_packet slotCount c.session slotID (by omega) (by omega)
      (read_valid haligned hfits hpos hshort) (Nat.zero_le _) (by rfl)
      (no_payload (by decide) _)
  obtain ⟨hans, rfl, hresp⟩ := send_ok h
  have hrun : c.outcomeBy f (Pr.buildReconfRequest Pr.opReadHBM slotID hbmAddr size []) =
      run (Feed.stepBy f) (Feed.start c.kernel p.lines) (c.windows.headD []) := by
    rw [Conn.outcomeBy, hpacket]
  obtain ⟨d, hone, hidle, hmem, hd⟩ := read_answered hx hk hexec hf hB hrun hans
  refine ⟨hidle, rfl, hmem, ?_⟩
  rw [hcmd, command_setWidth (by omega), command_toNat (by omega)] at hd
  rw [hresp _ _ hone]
  rcases hd with hbytes | ⟨b, e, hb, hbe, rfl⟩
  · exact Or.inl (readBytes_take hshort hbytes)
  · exact Or.inr ⟨b, e, hb, hbe, rfl⟩

/-- A read of which every beat fails returns the status. -/
theorem read_request_failed {e : Err}
    (hfail : ∀ i ∈ c.windows.headD [], ∀ y : Feed n slotCount,
      BeatsFail e y.kernel.sys (y.pinsAt (f y i)))
    (h : c.sendBy f name (Pr.buildReconfRequest Pr.opReadHBM slotID hbmAddr size []) =
      (.ok response, c')) : response = toBytes 64 (Resp.status e).tdata := by
  obtain ⟨p, hx, -, -, -, hpacket, hexec⟩ :=
    request_packet slotCount c.session slotID (by omega) (by omega)
      (read_valid haligned hfits hpos hshort) (Nat.zero_le _) (by rfl)
      (no_payload (by decide) _)
  obtain ⟨hans, -, hresp⟩ := send_ok h
  have hrun : c.outcomeBy f (Pr.buildReconfRequest Pr.opReadHBM slotID hbmAddr size []) =
      run (Feed.stepBy f) (Feed.start c.kernel p.lines) (c.windows.headD []) := by
    rw [Conn.outcomeBy, hpacket]
  exact hresp _ _ (read_failed hx hk hexec hf hfail hrun hans)

end Read

/-- **A read that is answered** returns the bytes stored. -/
theorem read_request (hk : c.kernel.Idle) (haligned : hbmAddr % 32 = 0) (hfits : hbmAddr < 2 ^ 33)
    (hpos : 0 < size) (hshort : size ≤ 64)
    (h : c.sendAndReadStatus name (Pr.buildReconfRequest Pr.opReadHBM slotID hbmAddr size []) =
      (.ok response, c')) :
    c'.kernel.Idle ∧ c'.windows = c.windows.tail ∧ c'.kernel.sys.mem = c.kernel.sys.mem ∧
      response.take size =
        (List.range size).map fun i => c.kernel.sys.mem (BitVec.ofNat 33 (hbmAddr + i)) := by
  obtain ⟨hidle, hwin, hmem, hbytes | ⟨b, e, hgood, hbad, -⟩⟩ :=
    read_request_by served_answers hk haligned hfits hpos hshort (fun i _ y => pins_good y i) h
  · exact ⟨hidle, hwin, hmem, hbytes⟩
  · rw [hgood] at hbad
    cases hbad

/-- **A reconfiguration that is answered** has streamed the words stored. -/
theorem reconf_request (hk : c.kernel.Idle) (haligned : hbmAddr % 32 = 0) (hfits : hbmAddr < 2 ^ 33)
    (hpos : 0 < size) (hwords : size % 4 = 0) (hsize : size < 2 ^ 64) (hslot : slotID.toNat < slotCount)
    (hans : (c.outcome (Pr.reconfRequest hbmAddr size slotID)).answered ≠ []) :
    (c.next (Pr.reconfRequest hbmAddr size slotID)).kernel.Idle ∧
    (c.next (Pr.reconfRequest hbmAddr size slotID)).kernel.sys.mem = c.kernel.sys.mem ∧
    ∃ h, (c.next (Pr.reconfRequest hbmAddr size slotID)).kernel.sys.hist = some h ∧
      h.cmd = line (Pr.buildReconfCommand Pr.opReconfICAP slotID hbmAddr size) ∧
      h.words = (List.range (size / 4)).map fun j =>
        (c.kernel.sys.mem.beat (BitVec.ofNat 33 (hbmAddr + 4 * j)) 4, decide (j + 1 = size / 4)) := by
  obtain ⟨p, hx, -, hcmd, -, hpacket, hexec⟩ :=
    request_packet slotCount c.session slotID (by omega) hsize
      (reconf_valid haligned hfits hpos hwords hslot) (Nat.zero_le _) (by rfl)
      (no_payload (by decide) _)
  have hrun : c.outcome (Pr.reconfRequest hbmAddr size slotID) =
      run Feed.step (Feed.start c.kernel p.lines) (c.windows.headD []) := by
    rw [Conn.outcome, Pr.reconfRequest, hpacket]
  obtain ⟨-, hidle, hmem, h, hhist, hcmd', hmem0, hws⟩ := reconf_exchange hx hk hexec hrun hans
  refine ⟨hidle, hmem, h, hhist, hcmd'.trans hcmd, ?_⟩
  have haddr : h.addr = BitVec.ofNat 33 hbmAddr := by
    rw [Hist.addr, hcmd', hcmd, command_setWidth (by omega)]
  have hcount : h.wordCount = size / 4 := by rw [Hist.wordCount, hcmd', hcmd, command_toNat hsize]
  rw [hws, Hist.bitstream, Hist.firstWords, hcount]
  refine List.map_congr_left fun j _ => ?_
  rw [Hist.word, hmem0, haddr, BitVec.ofNat_add]

end Operations

/-! ## 5. The loops -/

section Loops

variable {c c' : Conn n slotCount} {slotID : BitVec 8} {hbmAddr chunkSize : Nat}

/-- **The loop of the upload**: when it ends without error, all of its bytes are stored, one behind the
    other. -/
theorem uploadChunks_stores (haligned : hbmAddr % 32 = 0) (hchunk : chunkSize % 64 = 0)
    (hpos : 0 < chunkSize) (hshort : chunkSize ≤ 256) {bs : List (BitVec 8)} {offset total written : Nat}
    (hk : c.kernel.Idle) (htotal : bs ≠ [] → total % 64 = 0) (hfits : hbmAddr + total + bs.length ≤ 2 ^ 33)
    (h : Pr.uploadChunks hbmAddr chunkSize slotID (chunks chunkSize bs) offset total c =
      ((written, none), c')) :
    written = total + bs.length ∧ c'.kernel.Idle ∧
      c'.windows = c.windows.drop (chunks chunkSize bs).length ∧
      c'.kernel.sys.mem =
        c.kernel.sys.mem.store (BitVec.ofNat 33 (hbmAddr + total)) (fun i => bs.getD i 0) bs.length := by
  -- on the bytes still to be written, a chunk at a time
  induction hm : bs.length using Nat.strong_induction_on generalizing bs offset total c with
  | _ m ih =>
      subst hm
      by_cases hne : bs = []
      · subst hne
        rw [chunks_nil hpos, Pr.uploadChunks] at h
        obtain ⟨h1, rfl⟩ := Prod.mk.inj h
        exact ⟨(Prod.mk.inj h1).1.symm, hk, by rw [chunks_nil hpos]; rfl, rfl⟩
      have hlen := List.length_pos_iff.mpr hne
      have hfirst : (bs.take chunkSize).length = min chunkSize bs.length := List.length_take
      have hfirst_ne : bs.take chunkSize ≠ [] := List.length_pos_iff.mp (by omega)
      have hlow := htotal hne
      rw [chunks_cons hpos hne, Pr.uploadChunks] at h
      split at h
      · cases h
      · rename_i response c1 hsend
        obtain ⟨hok, hk1, hwin1, hmem1⟩ := write_request hk (by omega) (by omega) hfirst_ne (by omega) hsend
        rw [hok, Bool.not_true, if_neg Bool.false_ne_true] at h
        have hrest : (bs.drop chunkSize).length = bs.length - chunkSize := List.length_drop
        obtain ⟨hw, hk', hwin', hmem'⟩ := ih _ (by omega) hk1
          (fun hne' => by have := List.length_pos_iff.mpr hne'; omega) (by omega) h rfl
        refine ⟨by omega, hk', ?_, ?_⟩
        · rw [hwin', hwin1, chunks_cons hpos hne, List.length_cons, List.drop_tail]
        rw [hmem', hmem1, ← Nat.add_assoc, BitVec.ofNat_add (hbmAddr + total) _, hfirst]
        have hstart : ∀ i < min chunkSize bs.length, (bs.take chunkSize).getD i 0 = bs.getD i 0 := by
          intro i hi
          rw [List.getD_eq_getElem?_getD, List.getElem?_take_of_lt (by omega),
            List.getD_eq_getElem?_getD]
        have htail : ∀ i < (bs.drop chunkSize).length,
            (bs.drop chunkSize).getD i 0 = bs.getD (min chunkSize bs.length + i) 0 := by
          intro i hi
          rw [List.getD_eq_getElem?_getD, List.getElem?_drop, List.getD_eq_getElem?_getD,
            Nat.min_eq_left (by omega)]
        rw [Mem.store_congr _ _ _ hstart, Mem.store_congr _ _ _ htail,
          Mem.store_store _ _ (fun i => bs.getD i 0), hrest,
          show min chunkSize bs.length + (bs.length - chunkSize) = bs.length by omega]

/-- **The loop of the read**: when it ends without error, it has read what is stored behind each of its
    offsets. -/
theorem readChunks_fetches {size : Nat} (haligned : hbmAddr % 32 = 0) (hfits : hbmAddr + size ≤ 2 ^ 33)
    {offsets : List Nat} (ho : ∀ o ∈ offsets, o < size ∧ o % 64 = 0) {out out' : List (BitVec 8)}
    (hk : c.kernel.Idle) (h : Pr.readChunks hbmAddr size offsets out c = ((out', none), c')) :
    c'.kernel.Idle ∧ c'.windows = c.windows.drop offsets.length ∧
      c'.kernel.sys.mem = c.kernel.sys.mem ∧
      out' = out ++ offsets.flatMap fun o => ((stored c.kernel.sys.mem hbmAddr size).drop o).take 64 := by
  induction offsets generalizing out c with
  | nil =>
      rw [Pr.readChunks] at h
      obtain ⟨h1, rfl⟩ := Prod.mk.inj h
      exact ⟨hk, rfl, rfl, by rw [← (Prod.mk.inj h1).1]; exact (List.append_nil _).symm⟩
  | cons o offsets ih =>
      obtain ⟨hlt, hmod⟩ := ho o List.mem_cons_self
      rw [Pr.readChunks] at h
      split at h
      · cases h
      · rename_i response c1 hsend
        have hwant : min (size - o) maxReadBytes = min (size - o) 64 := rfl
        obtain ⟨hk1, hwin1, hmem1, hbytes⟩ := read_request hk (by omega) (by omega) (by omega) (by omega) hsend
        obtain ⟨hk', hwin', hmem', hout⟩ := ih (fun o' h' => ho o' (List.mem_cons_of_mem _ h')) hk1 h
        refine ⟨hk', by rw [hwin', hwin1, List.length_cons, List.drop_tail], hmem'.trans hmem1, ?_⟩
        rw [hout, hmem1, hbytes, List.flatMap_cons, List.append_assoc, stored_slice]
        rfl

/-- The bytes read back. -/
theorem readHBM_fetches {size : Nat} (haligned : hbmAddr % 32 = 0) (hfits : hbmAddr + size ≤ 2 ^ 33)
    (hk : c.kernel.Idle) {out : List (BitVec 8)} (h : Pr.readHBM c hbmAddr size = ((out, none), c')) :
    c'.kernel.Idle ∧ c'.windows = c.windows.drop ((size + 63) / 64) ∧
      c'.kernel.sys.mem = c.kernel.sys.mem ∧ out = stored c.kernel.sys.mem hbmAddr size := by
  obtain ⟨hk', hwin, hmem, hout⟩ := readChunks_fetches haligned hfits (offsets_below size) hk h
  rw [List.length_map, List.length_range] at hwin
  refine ⟨hk', hwin, hmem, hout.trans ?_⟩
  rw [List.nil_append, offsets_flatMap (length_stored _ _ _)]

/-- Enough time for a longer request is enough. -/
theorem Patient.mono {m m' size size' : Nat} {w : List FeedIn} (h : Patient m size w) (hm : m' ≤ m)
    (hsize : size' ≤ size) : Patient m' size' w := by
  obtain ⟨is, js, rfl, hsent, henough⟩ := h
  exact ⟨is, js, rfl, by omega, by omega⟩

/-- **Enough time for a number of exchanges**, of at most so many lines and bytes each. -/
def Conn.Patient (c : Conn n slotCount) (exchanges m size : Nat) : Prop :=
  exchanges ≤ c.windows.length ∧ ∀ w ∈ c.windows.take exchanges, Client.Patient m size w

theorem Conn.Patient.mono {exchanges m m' size size' : Nat} (h : c.Patient exchanges m size)
    (hm : m' ≤ m) (hsize : size' ≤ size) : c.Patient exchanges m' size' :=
  ⟨h.1, fun w hw => (h.2 w hw).mono hm hsize⟩

theorem patient_head {exchanges m size : Nat} (h : c.Patient (exchanges + 1) m size) :
    Client.Patient m size (c.windows.headD []) ∧
      ∀ request, (c.next request).Patient exchanges m size := by
  obtain ⟨hlen, hw⟩ := h
  cases hc : c.windows with
  | nil =>
      rw [hc] at hlen
      cases hlen
  | cons w ws =>
      rw [hc] at hlen hw
      refine ⟨hw w List.mem_cons_self, fun request => ?_⟩
      rw [Conn.Patient, Conn.next, hc]
      exact ⟨Nat.le_of_succ_le_succ hlen, fun w' hw' => hw w' (List.mem_cons_of_mem _ hw')⟩

/-- With enough time the upload ends without error. -/
theorem uploadChunks_ends (haligned : hbmAddr % 32 = 0) (hchunk : chunkSize % 64 = 0)
    (hpos : 0 < chunkSize) (hshort : chunkSize ≤ 256) {bs : List (BitVec 8)} {offset total : Nat}
    (hk : c.kernel.Idle) (htotal : bs ≠ [] → total % 64 = 0) (hfits : hbmAddr + total + bs.length ≤ 2 ^ 33)
    (hw : c.Patient (chunks chunkSize bs).length (chunkSize / 64 + 2) chunkSize) :
    (Pr.uploadChunks hbmAddr chunkSize slotID (chunks chunkSize bs) offset total c).1.2 = none := by
  induction hm : bs.length using Nat.strong_induction_on generalizing bs offset total c with
  | _ m ih =>
      subst hm
      by_cases hne : bs = []
      · subst hne
        rw [chunks_nil hpos, Pr.uploadChunks]
      have hlen := List.length_pos_iff.mpr hne
      have hfirst : (bs.take chunkSize).length = min chunkSize bs.length := List.length_take
      have hfirst_ne : bs.take chunkSize ≠ [] := List.length_pos_iff.mp (by omega)
      have hlow := htotal hne
      rw [chunks_cons hpos hne, List.length_cons] at hw
      obtain ⟨hnow, hlater⟩ := patient_head hw
      have hplen := length_writePayload (bs.take chunkSize)
      have hanswered := request_answered served_answers slotID hk (by omega) (by omega)
        (write_valid (show (hbmAddr + total) % 32 = 0 by omega) (by omega) hfirst_ne)
        (by omega) (by omega) (write_lines _)
        (hnow.mono (by rw [length_lines]; omega) (by omega))
      obtain ⟨response, hsend⟩ := send_answered s!"WRITE_HBM[{offset / chunkSize}]" hanswered
      rw [Conn.sendBy_served] at hsend
      obtain ⟨hok, hk1, -, -⟩ := write_request hk (by omega) (by omega) hfirst_ne (by omega) hsend
      have hrest : (bs.drop chunkSize).length = bs.length - chunkSize := List.length_drop
      rw [chunks_cons hpos hne, Pr.uploadChunks]
      simp only [hsend, hok, Bool.not_true, Bool.false_eq_true, if_false]
      exact ih _ (by omega) hk1 (fun hne' => by have := List.length_pos_iff.mpr hne'; omega) (by omega)
        (hlater _) rfl

/-- With enough time the read ends without error. -/
theorem readChunks_ends {size : Nat} (haligned : hbmAddr % 32 = 0) (hfits : hbmAddr + size ≤ 2 ^ 33)
    {offsets : List Nat} (ho : ∀ o ∈ offsets, o < size ∧ o % 64 = 0) {out : List (BitVec 8)}
    (hk : c.kernel.Idle) (hw : c.Patient offsets.length 2 64) :
    (Pr.readChunks hbmAddr size offsets out c).1.2 = none := by
  induction offsets generalizing out c with
  | nil => rw [Pr.readChunks]
  | cons o offsets ih =>
      obtain ⟨hlt, hmod⟩ := ho o List.mem_cons_self
      obtain ⟨hnow, hlater⟩ := patient_head hw
      have hwant : min (size - o) maxReadBytes = min (size - o) 64 := rfl
      have hanswered := request_answered served_answers 0 hk (by omega) (by omega)
        (read_valid (show (hbmAddr + o) % 32 = 0 by omega) (by omega)
          (show 0 < min (size - o) maxReadBytes by omega) (by omega))
        (Nat.zero_le _) (by rfl) (no_payload (by decide) _) (hnow.mono (Nat.le_refl _) (by omega))
      obtain ⟨response, hsend⟩ := send_answered s!"READ_HBM[{o / maxReadBytes}]" hanswered
      rw [Conn.sendBy_served] at hsend
      obtain ⟨hk1, -, -, -⟩ := read_request hk (by omega) (by omega) (by omega) (by omega) hsend
      rw [Pr.readChunks]
      simp only [hsend]
      exact ih (fun o' h' => ho o' (List.mem_cons_of_mem _ h')) hk1 (hlater _)

theorem readHBM_ends {size : Nat} (haligned : hbmAddr % 32 = 0) (hfits : hbmAddr + size ≤ 2 ^ 33)
    (hk : c.kernel.Idle) (hw : c.Patient ((size + 63) / 64) 2 64) :
    (Pr.readHBM c hbmAddr size).1.2 = none := by
  refine readChunks_ends haligned hfits (offsets_below size) hk ?_
  rw [List.length_map, List.length_range]
  exact hw

/-- `runReconfig` fails to read a response exactly when none has left the device. -/
theorem runReconfig_read {size : Nat}
    (h : (Pr.runReconfig c hbmAddr size slotID).1 ≠ some (.read "RECONF_ICAP")) :
    (c.outcome (Pr.reconfRequest hbmAddr size slotID)).answered ≠ [] := by
  intro hnil
  rw [Pr.runReconfig, Conn.sendAndReadStatus, hnil] at h
  exact h rfl

theorem runReconfig_answered {size : Nat}
    (h : (c.outcome (Pr.reconfRequest hbmAddr size slotID)).answered ≠ []) :
    (Pr.runReconfig c hbmAddr size slotID).1 ≠ some (.read "RECONF_ICAP") := by
  obtain ⟨response, hsend⟩ := send_answered (f := Feed.served) "RECONF_ICAP" h
  rw [Conn.sendBy_served] at hsend
  rw [Pr.runReconfig, hsend]
  show (if !Pr.statusOK response then some _ else none) ≠ _
  split <;> simp

theorem runReconfig_next {size : Nat} :
    (Pr.runReconfig c hbmAddr size slotID).2 = c.next (Pr.reconfRequest hbmAddr size slotID) := by
  rw [Pr.runReconfig]
  cases hsend : c.sendAndReadStatus "RECONF_ICAP" (Pr.reconfRequest hbmAddr size slotID) with
  | mk r c' =>
      have hnext := congrArg Prod.snd hsend
      cases r <;> exact hnext.symm

end Loops

/-! ## 6. Upload, read back, reconfigure -/

section Staged

variable {c : Conn n slotCount} {slotID : BitVec 8} {hbmAddr : Nat}

/-- **Upload, read back and reconfigure compose.** For every bitstream, aligned address and admitted
    chunk size, over an idle device whose memory answers OKAY: an upload that ends without error (and
    with enough time it does) has staged the padded bitstream and nothing else; the read back returns
    it; and the reconfiguration after either is accepted and streams its words. -/
theorem staged_bitstream {bitstream : List (BitVec 8)} {chunkSize : Nat} (hk : c.kernel.Idle)
    (hne : bitstream ≠ []) (haligned : hbmAddr % 32 = 0) (hlow : hbmAddr < 2 ^ 32)
    (hchunk : chunkSize ∈ [64, 128, 192, 256]) (hslot : slotID.toNat < slotCount)
    (hfits : hbmAddr + Pr.prSize bitstream ≤ 2 ^ 33) :
    (c.Patient (chunks chunkSize (Pr.prData bitstream)).length (chunkSize / 64 + 2) chunkSize →
      (Pr.uploadBitstream c hbmAddr (Pr.prData bitstream) chunkSize slotID).1.2 = none) ∧
    ∀ written c1, Pr.uploadBitstream c hbmAddr (Pr.prData bitstream) chunkSize slotID =
        ((written, none), c1) →
      written = Pr.prSize bitstream ∧
      stored c1.kernel.sys.mem hbmAddr (Pr.prSize bitstream) =
        bitstream ++ List.replicate (Pr.prSize bitstream - bitstream.length) 0 ∧
      (∀ x, x.toNat < hbmAddr ∨ hbmAddr + Pr.prSize bitstream ≤ x.toNat →
        c1.kernel.sys.mem x = c.kernel.sys.mem x) ∧
      (c1.Patient ((Pr.prSize bitstream + 63) / 64) 2 64 →
        (Pr.readHBM c1 hbmAddr (Pr.prSize bitstream)).1.2 = none) ∧
      (∀ out c2, Pr.readHBM c1 hbmAddr (Pr.prSize bitstream) = ((out, none), c2) →
        out = Pr.prData bitstream) ∧
      (Command.ofLine (line (Pr.buildReconfCommand Pr.opReconfICAP slotID hbmAddr
        (Pr.prSize bitstream)))).verdict slotCount = .reconf ∧
      ∀ c2, c2 = c1 ∨ (∃ out, Pr.readHBM c1 hbmAddr (Pr.prSize bitstream) = ((out, none), c2)) →
        (Patient 2 (Pr.prSize bitstream) (c2.windows.headD []) →
          (Pr.runReconfig c2 hbmAddr (Pr.prSize bitstream) slotID).1 ≠ some (.read "RECONF_ICAP")) ∧
        ((Pr.runReconfig c2 hbmAddr (Pr.prSize bitstream) slotID).1 ≠ some (.read "RECONF_ICAP") →
          ∃ h, (Pr.runReconfig c2 hbmAddr (Pr.prSize bitstream) slotID).2.kernel.sys.hist = some h ∧
            h.cmd = line (Pr.buildReconfCommand Pr.opReconfICAP slotID hbmAddr (Pr.prSize bitstream)) ∧
            h.words = icapWords (Pr.prData bitstream)) := by
  obtain ⟨hwords, hle⟩ := Pr.prSize_words bitstream
  have hlen := Pr.length_prData bitstream
  have hpos : 0 < Pr.prSize bitstream := Nat.lt_of_lt_of_le (List.length_pos_iff.mpr hne) hle
  have hsizes : chunkSize % 64 = 0 ∧ 0 < chunkSize ∧ chunkSize ≤ 256 := by
    simp only [List.mem_cons, List.not_mem_nil, or_false] at hchunk
    omega
  obtain ⟨hc1, hc2, hc3⟩ := hsizes
  refine ⟨fun hw => uploadChunks_ends haligned hc1 hc2 hc3 hk (fun _ => rfl) (by omega) hw,
    fun written c1 hup => ?_⟩
  obtain ⟨hwritten, hk1, hwin, hmem⟩ :=
    uploadChunks_stores haligned hc1 hc2 hc3 hk (fun _ => rfl) (by omega) hup
  have hstored : stored c1.kernel.sys.mem hbmAddr (Pr.prSize bitstream) = Pr.prData bitstream := by
    rw [hmem, ← hlen]
    exact stored_store (by omega)
  have hvalid := reconf_valid haligned (show hbmAddr < 2 ^ 33 by omega) hpos hwords hslot
  refine ⟨by omega, hstored.trans (Pr.prData_eq bitstream), fun x hx => ?_, fun hw => ?_,
    fun out c2 hread => ?_, ?_, fun c2 hc2 => ?_⟩
  · rw [hmem]
    refine Mem.store_outside _ _ _ _ _ fun i hi e => ?_
    have hnat := congrArg BitVec.toNat e
    rw [← BitVec.ofNat_add, BitVec.toNat_ofNat, Nat.mod_eq_of_lt (by omega)] at hnat
    omega
  · exact readHBM_ends haligned hfits hk1 hw
  · exact (readHBM_fetches haligned hfits hk1 hread).2.2.2.trans hstored
  · rw [command_ofLine, Nat.mod_eq_of_lt (by omega), Nat.mod_eq_of_lt (by omega)]
    exact verdict_valid hvalid
  · have hc2' : c2.kernel.Idle ∧ c2.kernel.sys.mem = c1.kernel.sys.mem := by
      rcases hc2 with rfl | ⟨out, hread⟩
      · exact ⟨hk1, rfl⟩
      · obtain ⟨hk2, -, hmem2, -⟩ := readHBM_fetches haligned hfits hk1 hread
        exact ⟨hk2, hmem2⟩
    obtain ⟨hk2, hmem2⟩ := hc2'
    refine ⟨fun hw => ?_, fun herr => ?_⟩
    · have hans := request_answered served_answers slotID hk2 (by omega) (by omega) hvalid (Nat.zero_le _) (by rfl)
        (no_payload (by decide) _) hw
      exact runReconfig_answered hans
    · have hans := runReconfig_read herr
      obtain ⟨-, -, h, hhist, hcmd, hws⟩ :=
        reconf_request hk2 haligned (by omega) hpos hwords (by omega) hslot hans
      refine ⟨h, by rw [runReconfig_next]; exact hhist, hcmd, hws.trans ?_⟩
      rw [hmem2]
      exact words_stored hlen hstored

end Staged

/-- A window: three edges with lines to send, then edges that hold nothing back. -/
def openWindow : List FeedIn :=
  List.replicate 3 ⟨true, true, In.low⟩ ++
    List.replicate (86 + FifoKind.latency) ⟨false, true, { In.low with
      mAxisTready := true, icapTready := true, icapPrDone := true, awready := true, wready := true,
      bvalid := true, arready := true, rvalid := true }⟩

theorem openWindow_patient : Patient 3 64 openWindow := by
  refine ⟨_, _, rfl, by decide, ?_⟩
  rw [List.countP_replicate, if_pos (by decide)]

theorem openWindow_exchanges {c : Conn n slotCount} {k : Nat}
    (h : c.windows = List.replicate (k + 1) openWindow) : c.Patient 1 3 64 := by
  rw [Conn.Patient, h, List.length_replicate]
  refine ⟨by omega, fun w hw => ?_⟩
  rw [List.eq_of_mem_replicate (List.mem_of_mem_take hw)]
  exact openWindow_patient

end Run

section Source

attribute [local instance] axisDataFifos

/-- A connection to a device out of reset, with time for three exchanges. -/
def freshConn : Conn 2 2 := ⟨Kernel.reset 2 2 fun _ => 0x55, 7, List.replicate 3 openWindow⟩

/-- Five bytes at 0x40, for slot 1: eight are staged, and two words streamed. -/
theorem staged_five_bytes :
    ∃ c1, Pr.uploadBitstream freshConn 0x40 (Pr.prData [1, 2, 3, 4, 5]) 64 1 = ((8, none), c1) ∧
      stored c1.kernel.sys.mem 0x40 8 = [1, 2, 3, 4, 5, 0, 0, 0] ∧
      ∃ c2, Pr.readHBM c1 0x40 8 = (([1, 2, 3, 4, 5, 0, 0, 0], none), c2) ∧
        ∃ h, (Pr.runReconfig c2 0x40 8 1).2.kernel.sys.hist = some h ∧
          h.words = [(0x04030201, false), (0x00000005, true)] := by
  have hidle : freshConn.kernel.Idle := idle_reset _
  obtain ⟨hend, hall⟩ := @staged_bitstream 2 2 _ freshConn 1 0x40 [1, 2, 3, 4, 5] 64 hidle (by decide)
    (by decide) (by decide) (by decide) (by decide) (by decide)
  have hsize : Pr.prSize [1, 2, 3, 4, 5] = 8 := rfl
  have hdata : Pr.prData [1, 2, 3, 4, 5] = [1, 2, 3, 4, 5, 0, 0, 0] := rfl
  -- one exchange is over after the upload, another after the read
  have hw : freshConn.Patient 1 3 64 := openWindow_exchanges (k := 2) rfl
  cases hup : Pr.uploadBitstream freshConn 0x40 (Pr.prData [1, 2, 3, 4, 5]) 64 1 with
  | mk r c1 =>
      obtain ⟨written, err⟩ := r
      have herr : err = none := by
        have he := hend hw
        rw [hup] at he
        exact he
      subst herr
      obtain ⟨hwritten, hstored, -, hread, hout, -, hreconf⟩ := hall written c1 hup
      obtain ⟨-, hk1, hwin1, -⟩ := uploadChunks_stores (by decide) (by decide) (by decide) (by decide)
        hidle (fun _ => rfl) (by decide) hup
      have hw1 : c1.Patient 1 3 64 := openWindow_exchanges (k := 1) hwin1
      refine ⟨c1, by rw [hwritten]; rfl, hstored, ?_⟩
      cases hrd : Pr.readHBM c1 0x40 8 with
      | mk r c2 =>
          obtain ⟨out, err⟩ := r
          have herr : err = none := by
            have he := hread (hw1.mono (by decide) (by decide))
            rw [hsize, hrd] at he
            exact he
          subst herr
          obtain ⟨-, hwin2, -, -⟩ := readHBM_fetches (by decide) (by decide) hk1 hrd
          rw [hwin1] at hwin2
          have hw2 : c2.Patient 1 3 64 := openWindow_exchanges (k := 0) hwin2
          obtain ⟨htime, hstream⟩ := hreconf c2 (Or.inr ⟨out, hrd⟩)
          obtain ⟨h, hhist, -, hwords⟩ := hstream (htime ((patient_head hw2).1.mono (by decide) (by decide)))
          exact ⟨c2, by rw [hout out c2 hrd]; rfl, h, hhist, hwords.trans (by decide)⟩

end Source

end Frac.Client
