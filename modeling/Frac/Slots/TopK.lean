/-
  File:      Frac/Slots/TopK.lean
  Subject:   The slot module `top_k.v`: the sixteen largest words of a request, in one response beat.

  A header line gives the mask of the result words; a data line is unpacked word by word into a
  sorted array. `TOP_K_NUM` is sixteen, the default.

  * `TopK.edge` -- one clock edge;
  * `topKService` -- **a request is answered with one beat**, whose length is always 64.
-/
import Frac.Lib.ByteMem
import Frac.Slots.Boundary

namespace Frac.Slots

open Bits

/-! ## 1. The module -/

/-- The registers of `top_k`. -/
structure TopK where
  line : BitVec 512
  widx : BitVec 4
  unpacking : Bool
  lineLast : Bool
  frameActive : Bool
  respValid : Bool
  topk : Fin 16 → BitVec 32
  kmask : BitVec 16
  respSession : BitVec 16

namespace TopK

def reset : TopK where
  line := 0
  widx := 0
  unpacking := false
  lineLast := false
  frameActive := false
  respValid := false
  topk _ := 0
  kmask := BitVec.allOnes 16
  respSession := 0

/-- `ins_val`. -/
def insVal (s : TopK) : BitVec 32 := s.line.extractLsb' (32 * s.widx.toNat) 32

/-- The sorted-array insertion: cell `i` looks at itself and at its neighbour. -/
def insert (v : BitVec 32) (t : Fin 16 → BitVec 32) (i : Fin 16) : BitVec 32 :=
  if v > t i then if i = 0 ∨ ¬ v > t (i - 1) then v else t (i - 1) else t i

/-- The insertion of a word while a line is unpacked. -/
def unpack (s r : TopK) : TopK :=
  { r with
    topk := insert s.insVal s.topk
    widx := s.widx + 1
    unpacking := if s.widx = 15 then false else r.unpacking
    respValid := if s.widx = 15 then s.lineLast else r.respValid }

/-- A beat that is taken. -/
def take (s : TopK) (b : SlotBeat) (r : TopK) : TopK :=
  let r := { r with
    respSession := if s.frameActive then r.respSession else b.session
    frameActive := true }
  if !s.frameActive && b.isHeader then
    { r with kmask := b.payload.extractLsb' 480 16, respValid := b.tlast }
  else
    { r with line := b.payload, lineLast := b.tlast, widx := 0, unpacking := true }

/-- The response is accepted. -/
def clear (r : TopK) : TopK :=
  { r with respValid := false, frameActive := false, kmask := BitVec.allOnes 16, topk := fun _ => 0 }

def tready (s : TopK) : Bool := !s.unpacking && !s.respValid

/-- The clock edge with `rst` low. -/
def edge (s : TopK) (offered : Option SlotBeat) (mTready : Bool) : TopK :=
  let r := if s.unpacking then unpack s s else s
  let r := match if s.tready then offered else none with
    | none => r
    | some b => take s b r
  if s.respValid && mTready then clear r else r

/-- `resp_data`: the words of the array under the mask. -/
def respData (s : TopK) : BitVec 512 :=
  ofBits 512 fun t => s.kmask.getLsbD (t / 32) && (s.topk (Fin.ofNat 16 (t / 32))).getLsbD (t % 32)

/-- `m_axis_tdata`. -/
def response (s : TopK) : SlotBeat := ⟨64, s.respSession, true, s.respData⟩

/-- No request is under way. -/
structure Idle (s : TopK) : Prop where
  unpacking : s.unpacking = false
  frameActive : s.frameActive = false
  respValid : s.respValid = false

end TopK

def topK : SlotModule where
  State := TopK
  Cores := Unit
  Idle := TopK.Idle
  tready s _ := s.tready
  edge s offered mTready _ := s.edge offered mTready
  sent s _ mTready := if s.respValid && mTready then some s.response else none
  willing s mTready _ := !s.respValid || mTready

theorem topK_idle_reset : topK.Idle TopK.reset := ⟨rfl, rfl, rfl⟩

/-! What an edge does, by the two flags: ready, unpacking, answering. -/

section Edge

variable {s : TopK}

theorem topK_wait (hu : s.unpacking = false) (hr : s.respValid = false) (t : Bool) :
    s.edge none t = s := by
  simp [TopK.edge, hu, hr]

theorem topK_taking (hu : s.unpacking = false) (hr : s.respValid = false) (b : SlotBeat) (t : Bool) :
    s.edge (some b) t = s.take b s := by
  simp [TopK.edge, TopK.tready, hu, hr]

theorem topK_unpacking (hu : s.unpacking = true) (hr : s.respValid = false) (o : Option SlotBeat)
    (t : Bool) : s.edge o t = s.unpack s := by
  simp [TopK.edge, TopK.tready, hu, hr]

theorem topK_stalled (hu : s.unpacking = false) (hr : s.respValid = true) (o : Option SlotBeat) :
    s.edge o false = s := by
  simp [TopK.edge, TopK.tready, hu, hr]

theorem topK_accepted (hu : s.unpacking = false) (hr : s.respValid = true) (o : Option SlotBeat) :
    s.edge o true = s.clear := by
  simp [TopK.edge, TopK.tready, hu, hr]

theorem topK_taken (hu : s.unpacking = false) (hr : s.respValid = false) (o : Option SlotBeat)
    (t : Bool) : topK.taken s o t = o := by
  show (if s.tready then o else none) = o
  rw [TopK.tready, hu, hr]
  rfl

theorem topK_busy (h : (s.unpacking || s.respValid) = true) (o : Option SlotBeat) (t : Bool) :
    topK.taken s o t = none := by
  have hready : s.tready = false := by rw [TopK.tready, ← Bool.not_or, h]; rfl
  show (if s.tready then o else none) = none
  rw [hready]
  rfl

theorem topK_quiet {t : Bool} (h : (s.respValid && t) = false) (o : Option SlotBeat) :
    topK.sent s o t = none := by
  show (if s.respValid && t then some s.response else none) = none
  rw [h]
  rfl

theorem topK_sends (hr : s.respValid = true) (o : Option SlotBeat) :
    topK.sent s o true = some s.response := by
  show (if s.respValid && true then some s.response else none) = _
  rw [hr]
  rfl

theorem topK_widx (h : s.widx ≠ 15) : (s.unpack s).widx.toNat = s.widx.toNat + 1 := by
  have hne : s.widx.toNat ≠ 15 := fun e => h (BitVec.eq_of_toNat_eq e)
  have hlt := s.widx.isLt
  exact toNat_succ (x := s.widx) (by omega)

/-- The edges a module still needs for what it has taken: 17 for a line, one for the response. -/
def TopK.load (s : TopK) : Nat :=
  (if s.unpacking then 17 - s.widx.toNat else 0) + (if s.respValid then 1 else 0)

theorem load_ready (hu : s.unpacking = false) (hr : s.respValid = false) : s.load = 0 := by
  rw [TopK.load, hu, hr]
  rfl

theorem load_answer (hu : s.unpacking = false) (hr : s.respValid = true) : s.load = 1 := by
  rw [TopK.load, hu, hr]
  rfl

theorem load_line (hu : s.unpacking = true) : 0 < s.load := by
  have hlt := s.widx.isLt
  rw [TopK.load, hu, if_pos rfl]
  omega

theorem load_take (hu : s.unpacking = false) (hr : s.respValid = false) (b : SlotBeat) :
    (s.take b s).load ≤ 17 := by
  unfold TopK.take TopK.load
  by_cases hh : (!s.frameActive && b.isHeader) = true
  · simp only [hh, if_true, hu, Bool.false_eq_true, if_false]
    split <;> omega
  · simp only [hh, Bool.false_eq_true, if_false, if_true, hr]
    omega

theorem load_unpack (hu : s.unpacking = true) (hr : s.respValid = false) :
    (s.unpack s).load < s.load := by
  have hlt := s.widx.isLt
  have hload : s.load = 17 - s.widx.toNat := by
    rw [TopK.load, hu, hr]
    rfl
  rw [hload]
  by_cases h15 : s.widx = 15
  · have hw : s.widx.toNat = 15 := congrArg BitVec.toNat h15
    have hdone : (s.unpack s).unpacking = false := if_pos h15
    rw [TopK.load, hdone, if_neg Bool.false_ne_true]
    split <;> omega
  · have hgoes : (s.unpack s).unpacking = true := (if_neg h15).trans hu
    have hquiet : (s.unpack s).respValid = false := (if_neg h15).trans hr
    rw [TopK.load, hgoes, hquiet, topK_widx h15, if_pos rfl, if_neg Bool.false_ne_true]
    omega

end Edge

/-! ## 2. A request -/

section Request

variable {d : Nat} {session : BitVec 16} {bs : List SlotBeat}

/-- **Where a request is** once `j` of its beats are taken: not begun, a line being unpacked, between
    two lines, answered, or done. -/
inductive TopKServing (d : Nat) (session : BitVec 16) : Nat → TopK → List SlotBeat → Prop where
  | fresh {s} (hs : s.Idle) : TopKServing d session 0 s []
  | line {j s} (hj : j ≤ d + 1) (h0 : 0 < j) (hu : s.unpacking = true) (hr : s.respValid = false)
      (hf : s.frameActive = true) (hs : s.respSession = session)
      (hl : s.lineLast = decide (j = d + 1)) : TopKServing d session j s []
  | between {j s} (hj : j < d + 1) (h0 : 0 < j) (hu : s.unpacking = false) (hr : s.respValid = false)
      (hf : s.frameActive = true) (hs : s.respSession = session) : TopKServing d session j s []
  | answer {s} (hu : s.unpacking = false) (hr : s.respValid = true) (hf : s.frameActive = true)
      (hs : s.respSession = session) : TopKServing d session (d + 1) s []
  | done {s} (hs : s.Idle) (p : BitVec 512) :
      TopKServing d session (d + 1) s [⟨64, session, true, p⟩]

/-- A take costs at most 17 edges of unpacking, the response one more. -/
def TopK.rank (d j : Nat) (s : TopK) : Nat :=
  18 * (d + 1 - j) + (if s.unpacking then 17 - s.widx.toNat else 0) + (if s.respValid then 1 else 0)

theorem rank_eq (d j : Nat) (s : TopK) : s.rank d j = 18 * (d + 1 - j) + s.load :=
  Nat.add_assoc ..

/-- A beat is taken between two lines, or as the first. -/
theorem topK_take (h : IsRequest d session bs) {s : TopK} {j : Nat} {b : SlotBeat}
    (hb : bs[j]? = some b) (hu : s.unpacking = false) (hr : s.respValid = false)
    (hj : s.frameActive = decide (j ≠ 0)) (hs : s.frameActive = true → s.respSession = session)
    (t : Bool) :
    TopKServing d session (j + 1) (s.edge (some b) t) [] ∧
      (s.edge (some b) t).rank d (j + 1) < s.rank d j := by
  obtain ⟨-, hsession, hlast⟩ := h.beat hb
  have hlt : j < d + 1 := h.length ▸ (List.getElem?_eq_some_iff.mp hb).1
  have hsess : (s.take b s).respSession = session := by
    unfold TopK.take
    cases hf : s.frameActive with
    | true => simpa using hs hf
    | false => simp only; split <;> exact hsession
  have hactive : (s.take b s).frameActive = true := by
    unfold TopK.take
    simp only
    split <;> rfl
  have hload := load_take hu hr b
  rw [topK_taking hu hr, rank_eq, rank_eq, load_ready hu hr]
  refine ⟨?_, by omega⟩
  by_cases hh : (!s.frameActive && b.isHeader) = true
  · -- the header
    have hj0 : j = 0 := by
      rw [hj] at hh
      simp at hh
      exact hh.1
    have htake : (s.take b s).unpacking = false ∧ (s.take b s).respValid = b.tlast := by
      unfold TopK.take
      simp only [hh, if_true]
      exact ⟨hu, trivial⟩
    obtain ⟨h1, h2⟩ := htake
    subst hj0
    rw [hlast] at h2
    by_cases hd : 0 = d
    · rw [decide_eq_true hd] at h2
      subst hd
      exact .answer h1 h2 hactive hsess
    · rw [decide_eq_false hd] at h2
      exact .between (by omega) (by omega) h1 h2 hactive hsess
  · have htake : (s.take b s).unpacking = true ∧ (s.take b s).respValid = false ∧
        (s.take b s).lineLast = b.tlast := by
      unfold TopK.take
      simp only [hh]
      exact ⟨rfl, hr, rfl⟩
    obtain ⟨h1, h2, h3⟩ := htake
    refine .line hlt (Nat.succ_pos j) h1 h2 hactive hsess ?_
    rw [h3, hlast]
    exact decide_eq_decide.mpr (by omega)

/-- One word of a line. -/
theorem topK_unpack {s : TopK} {j : Nat} (hj : j ≤ d + 1) (h0 : 0 < j) (hu : s.unpacking = true)
    (hr : s.respValid = false) (hf : s.frameActive = true) (hs : s.respSession = session)
    (hl : s.lineLast = decide (j = d + 1)) (o : Option SlotBeat) (t : Bool) :
    TopKServing d session j (s.edge o t) [] ∧ (s.edge o t).rank d j < s.rank d j := by
  have hload := load_unpack hu hr
  rw [topK_unpacking hu hr, rank_eq, rank_eq]
  refine ⟨?_, by omega⟩
  by_cases hlast : s.widx = 15
  · have h1 : (s.unpack s).unpacking = false := if_pos hlast
    have h2 : (s.unpack s).respValid = decide (j = d + 1) := (if_pos hlast).trans hl
    by_cases hd : j = d + 1
    · rw [decide_eq_true hd] at h2
      exact hd ▸ .answer h1 h2 hf hs
    · rw [decide_eq_false hd] at h2
      exact .between (by omega) h0 h1 h2 hf hs
  · have h1 : (s.unpack s).unpacking = true := (if_neg hlast).trans hu
    have h2 : (s.unpack s).respValid = false := (if_neg hlast).trans hr
    exact .line hj h0 h1 h2 hf hs hl

/-- What an edge owes to a request of `top_k`. -/
def TopKAdvance (d : Nat) (session : BitVec 16) (bs : List SlotBeat) : Nat → TopK → List SlotBeat →
    Option SlotBeat → Bool → Prop :=
  fun j s out o t => Advance topK bs (TopKServing d session) (fun j s => TopK.rank d j s) j s out o t ()

/-- A module that is ready takes what it is offered. -/
theorem topK_ready (h : IsRequest d session bs) {j : Nat} {s : TopK}
    (hinv : TopKServing d session j s []) (hu : s.unpacking = false) (hr : s.respValid = false)
    (hj : s.frameActive = decide (j ≠ 0)) (hs : s.frameActive = true → s.respSession = session)
    (hlt : j < d + 1) {o : Option SlotBeat} (t : Bool) (ho : o = none ∨ o = bs[j]?) :
    TopKAdvance d session bs j s [] o t := by
  have ht : topK.taken s o t = o := topK_taken hu hr o t
  have hn : topK.sent s o t = none := topK_quiet (by rw [hr, Bool.false_and]) o
  cases o with
  | none =>
      have hedge : topK.edge s none t () = s := topK_wait hu hr t
      refine .silent ht hn (by rw [hedge]; exact hinv) (by rw [hedge]) fun hnone => ?_
      have hlen := List.getElem?_eq_none_iff.mp hnone.symm
      have := h.length
      omega
  | some b =>
      have hb : bs[j]? = some b := (ho.resolve_left (Option.some_ne_none b)).symm
      obtain ⟨h1, h2⟩ := topK_take h hb hu hr hj hs t
      exact .take ht hn h1 h2

theorem topK_edge (h : IsRequest d session bs) {j : Nat} {s : TopK} {out : List SlotBeat}
    (hinv : TopKServing d session j s out) (o : Option SlotBeat) (t : Bool)
    (ho : o = none ∨ o = bs[j]?) : TopKAdvance d session bs j s out o t := by
  cases hinv with
  | fresh hs =>
      exact topK_ready h (.fresh hs) hs.unpacking hs.respValid (by rw [hs.frameActive]; rfl)
        (fun e => by rw [hs.frameActive] at e; cases e) (Nat.succ_pos d) t ho
  | between hj h0 hu hr hf hs =>
      exact topK_ready h (.between hj h0 hu hr hf hs) hu hr (by rw [hf, decide_eq_true h0.ne'])
        (fun _ => hs) hj t ho
  | line hj h0 hu hr hf hs hl =>
      obtain ⟨h1, h2⟩ := topK_unpack hj h0 hu hr hf hs hl o t
      exact .silent (topK_busy (by rw [hu, Bool.true_or]) o t)
        (topK_quiet (by rw [hr, Bool.false_and]) o) h1 h2.le fun _ _ _ => h2
  | answer hu hr hf hs =>
      have hnone : topK.taken s o t = none := topK_busy (by rw [hr, Bool.or_true]) o t
      cases t with
      | false =>
          have hedge : topK.edge s o false () = s := topK_stalled hu hr o
          refine .silent hnone (topK_quiet (Bool.and_false _) o) (by rw [hedge]; exact .answer hu hr hf hs)
            (by rw [hedge]) fun _ hw => ?_
          rw [show topK.willing s false () = (!s.respValid || false) from rfl, hr] at hw
          cases hw
      | true =>
          have hedge : topK.edge s o true () = s.clear := topK_accepted hu hr o
          refine .send hnone (topK_sends hr o) ?_ ?_
          · have hidle : s.clear.Idle := ⟨hu, rfl, rfl⟩
            rw [hedge, TopK.response, hs]
            exact .done hidle _
          · rw [hedge]
            simp [TopK.rank, TopK.clear, hu, hr]
  | done hs p =>
      have hnil : bs[d + 1]? = none := List.getElem?_eq_none_iff.mpr h.length.le
      obtain rfl : o = none := ho.elim id fun e => e.trans hnil
      have hedge : topK.edge s none t () = s := topK_wait hs.unpacking hs.respValid t
      refine .silent (topK_taken hs.unpacking hs.respValid none t)
        (topK_quiet (by rw [hs.respValid, Bool.false_and]) none) (by rw [hedge]; exact .done hs p) (by rw [hedge]) fun _ _ h0 => absurd ?_ h0
      simp [TopK.rank, hs.unpacking, hs.respValid]

theorem topK_start {s : TopK} (hs : s.Idle) : s.rank d 0 ≤ 18 * (d + 1) := by
  simp [TopK.rank, hs.unpacking, hs.respValid]

theorem topK_finish {j : Nat} {s : TopK} {out : List SlotBeat} (h : TopKServing d session j s out)
    (h0 : s.rank d j = 0) : IsFrame 1 session out ∧ s.Idle := by
  unfold TopK.rank at h0
  cases h with
  | fresh => omega
  | line hj _ hu hr =>
      have := s.widx.isLt
      rw [hu, if_pos rfl] at h0
      omega
  | between hj => omega
  | answer hu hr => rw [hr, if_pos rfl] at h0; omega
  | done hs p => exact ⟨⟨rfl, [], _, rfl, by simp, rfl, rfl, rfl⟩, hs⟩

/-- **`top_k` answers a request with one beat of 64 bytes.** -/
def topKService (h : IsRequest d session bs) : Service topK bs (IsFrame 1 session) where
  Inv := TopKServing d session
  rank j s := TopK.rank d j s
  bound := 18 * (d + 1)
  start hs := ⟨.fresh hs, topK_start hs⟩
  edge hinv o t _ ho := topK_edge h hinv o t ho
  finish hinv h0 := topK_finish hinv h0

end Request

end Frac.Slots
