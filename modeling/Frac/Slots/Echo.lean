/-
  File:      Frac/Slots/Echo.lean
  Subject:   The two slot modules without state: `pattern_slot.v`, which returns every beat, and
             `or_slot.v`, which returns every beat with its payload or-ed with ones.

  * `wiresService` -- **what is given to such a module comes back beat by beat**;
  * `echoService` -- a request is returned with its length and session.
-/
import Frac.Slots.Boundary

namespace Frac.Slots

/-! ## 1. The modules -/

/-- A module of wires: every beat goes through at once, changed by `f`. -/
def wires (f : SlotBeat → SlotBeat) : SlotModule where
  State := Unit
  Cores := Unit
  Idle _ := True
  tready _ mTready := mTready
  edge _ _ _ _ := ()
  sent _ offered mTready := if mTready then offered.map f else none
  willing _ mTready _ := mTready

/-- `pattern_slot`. -/
def patternSlot : SlotModule := wires id

/-- `or_slot`: `{s_axis_tdata[544:512], s_axis_tdata[511:0] | {512{1'b1}}}`. -/
def orSlot : SlotModule := wires fun b => { b with payload := b.payload ||| BitVec.allOnes 512 }

/-- The two modules, as the software names them. -/
inductive EchoSlot where
  | pattern
  | or
  deriving DecidableEq

namespace EchoSlot

/-- What the module makes of a line. -/
def line : EchoSlot → BitVec 512 → BitVec 512
  | pattern, l => l
  | or, l => l ||| BitVec.allOnes 512

def module : EchoSlot → SlotModule
  | pattern => patternSlot
  | or => orSlot

theorem module_eq (slot : EchoSlot) :
    slot.module = wires fun b => { b with payload := slot.line b.payload } := by
  cases slot <;> rfl

end EchoSlot

/-! ## 2. A request -/

variable {d : Nat} {session : BitVec 16} {bs : List SlotBeat}

/-- **A module of wires returns what it is given.** -/
def wiresService (bs : List SlotBeat) (f : SlotBeat → SlotBeat) :
    Service (wires f) bs (· = bs.map f) where
  Inv j _ out := j ≤ bs.length ∧ out = (bs.take j).map f
  rank j _ := bs.length - j
  bound := bs.length
  start _ := ⟨⟨Nat.zero_le _, rfl⟩, Nat.le_refl _⟩
  edge := by
    rintro j s out ⟨hj, rfl⟩ o t c ho
    cases t with
    | false => exact .silent rfl rfl ⟨hj, rfl⟩ (Nat.le_refl _) fun _ => Bool.noConfusion
    | true =>
        cases o with
        | none =>
            refine .silent rfl rfl ⟨hj, rfl⟩ (Nat.le_refl _) fun hnone _ h0 => absurd ?_ h0
            have hlen := List.getElem?_eq_none_iff.mp hnone.symm
            omega
        | some b =>
            have hb : bs[j]? = some b := (ho.resolve_left (Option.some_ne_none b)).symm
            have hlt : j < bs.length := (List.getElem?_eq_some_iff.mp hb).1
            have hstep : bs.length - (j + 1) < bs.length - j := by omega
            refine ⟨⟨hlt, ?_⟩, hstep.le, fun _ _ _ => hstep⟩
            show (bs.take j).map f ++ [f b] = (bs.take (j + 1)).map f
            rw [List.take_add_one, hb, List.map_append]
            rfl
  finish := by
    rintro j s out ⟨hj, rfl⟩ h0
    rw [List.take_of_length_le (by omega)]
    exact ⟨rfl, trivial⟩

/-- The beats of a request, returned with their boundary fields, are a frame of the same length. -/
theorem request_frame (h : IsRequest d session bs) {f : SlotBeat → SlotBeat}
    (hf : ∀ b, (f b).bytes = b.bytes ∧ (f b).session = b.session ∧ (f b).tlast = b.tlast) :
    IsFrame (d + 1) session (bs.map f) := by
  have hlen := h.length
  refine ⟨by rw [List.length_map, hlen], ?_⟩
  have hlast : d < bs.length := by omega
  have hb := h.beat (List.getElem?_eq_getElem hlast)
  refine ⟨(bs.take d).map f, f bs[d], ?_, ?_, ?_, ?_, ?_⟩
  · rw [← List.map_singleton, ← List.map_append, ← List.take_succ_eq_append_getElem hlast,
      List.take_of_length_le (by omega)]
  · intro b hmem
    obtain ⟨b', hb', rfl⟩ := List.mem_map.mp hmem
    obtain ⟨k, hk⟩ := List.mem_iff_getElem?.mp hb'
    have hkd : k < d := by
      have hlt := (List.getElem?_eq_some_iff.mp hk).1
      rw [List.length_take] at hlt
      omega
    rw [List.getElem?_take_of_lt hkd] at hk
    rw [(hf b').2.2, (h.beat hk).2.2]
    exact decide_eq_false (by omega)
  · rw [(hf _).2.2, hb.2.2]
    exact decide_eq_true rfl
  · rw [(hf _).1, hb.1]
  · rw [(hf _).2.1, hb.2.1]

/-- **A module of wires returns the request.** -/
def echoService (h : IsRequest d session bs) (f : SlotBeat → SlotBeat)
    (hf : ∀ b, (f b).bytes = b.bytes ∧ (f b).session = b.session ∧ (f b).tlast = b.tlast) :
    Service (wires f) bs (IsFrame (d + 1) session) :=
  (wiresService bs f).mono fun out hout => by rw [hout]; exact request_frame h hf

end Frac.Slots
