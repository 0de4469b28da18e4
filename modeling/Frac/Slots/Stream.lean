/-
  File:      Frac/Slots/Stream.lean
  Subject:   A slot module alone, fed with one request after the other.

  * `StreamRequest` -- a request as lines with their metas: one at least, `tlast` on the last;
  * `Stream` -- the module, the beats still to be offered and the beats it has sent; an edge may leave
    a gap on `s_axis` and stall `m_axis`;
  * `Feeding` -- a module that answers one request after the other, `feeding_run` -- **every run is
    somewhere in the list of requests**.
-/
import Frac.Lib.Clocked
import Frac.Slots.Boundary

namespace Frac.Slots

open Clocked

/-! ## 1. Requests -/

/-- A line of a request with its meta. -/
structure SlotLine where
  bytes : BitVec 16
  session : BitVec 16
  payload : BitVec 512
  deriving DecidableEq

/-- The line as a beat. -/
def SlotLine.beat (l : SlotLine) (tlast : Bool) : SlotBeat := ⟨l.bytes, l.session, tlast, l.payload⟩

def SlotLine.isHeader (l : SlotLine) : Bool := l.payload.extractLsb' 0 448 == BitVec.allOnes 448

@[simp] theorem SlotLine.isHeader_beat (l : SlotLine) (tlast : Bool) :
    (l.beat tlast).isHeader = l.isHeader := rfl

/-- The lines of a request as beats: `tlast` on the last. -/
def lineBeats : List SlotLine → List SlotBeat
  | [] => []
  | l :: ls => l.beat ls.isEmpty :: lineBeats ls

/-- **A request of a stream**: one line or more. -/
structure StreamRequest where
  first : SlotLine
  more : List SlotLine
  deriving DecidableEq

namespace StreamRequest

def lines (r : StreamRequest) : List SlotLine := r.first :: r.more

def beats (r : StreamRequest) : List SlotBeat := lineBeats r.lines

/-- The lines that are not the header. -/
def data (r : StreamRequest) : List SlotLine := if r.first.isHeader then r.more else r.lines

end StreamRequest

/-! ## 2. The stream -/

/-- A module, the beats to come and the beats it has sent. -/
structure Stream (M : SlotModule) where
  slot : M.State
  todo : List SlotBeat
  sent : List SlotBeat

/-- One clock edge's inputs: `s_axis_tvalid`, `m_axis_tready`, and what the cores drive. -/
structure StreamIn (M : SlotModule) where
  valid : Bool
  mTready : Bool
  cores : M.Cores

namespace Stream

variable {M : SlotModule}

def offered (y : Stream M) (i : StreamIn M) : Option SlotBeat := if i.valid then y.todo.head? else none

/-- One clock edge with `rst` low. -/
def edge (y : Stream M) (i : StreamIn M) : Stream M where
  slot := M.edge y.slot (y.offered i) i.mTready i.cores
  todo := y.todo.drop (M.taken y.slot (y.offered i) i.mTready).toList.length
  sent := y.sent ++ (M.sent y.slot (y.offered i) i.mTready).toList

/-- A stream about to begin. -/
def start (s : M.State) (requests : List StreamRequest) : Stream M :=
  ⟨s, requests.flatMap StreamRequest.beats, []⟩

/-- The edge holds nothing back: the next beat is offered if there is one, and the module gets what it
    waits for. -/
def willing (y : Stream M) (i : StreamIn M) : Bool := i.valid && M.willing y.slot i.mTready i.cores

/-- An edge by what the module does at it. -/
theorem edge_eq {y : Stream M} {i : StreamIn M} {s : M.State} {taken sent : Option SlotBeat}
    (hs : M.edge y.slot (y.offered i) i.mTready i.cores = s)
    (ht : M.taken y.slot (y.offered i) i.mTready = taken)
    (hm : M.sent y.slot (y.offered i) i.mTready = sent) :
    y.edge i = ⟨s, y.todo.drop taken.toList.length, y.sent ++ sent.toList⟩ := by
  rw [edge, hs, ht, hm]

theorem offered_cases (y : Stream M) (i : StreamIn M) :
    y.offered i = none ∨ ∃ b rest, y.todo = b :: rest ∧ y.offered i = some b := by
  unfold offered
  cases i.valid with
  | false => exact Or.inl rfl
  | true =>
      cases y.todo with
      | nil => exact Or.inl rfl
      | cons b rest => exact Or.inr ⟨b, rest, rfl, rfl⟩

end Stream

/-! ## 3. One request after the other -/

section Feeding

variable {M : SlotModule} {E : Type}

/-- Where an edge takes the request `r`: it goes on, or it is answered with what `e` makes of it. -/
def Follows (Rests : List (StreamRequest × E) → M.State → Prop)
    (Serves : List (StreamRequest × E) → StreamRequest → Nat → M.State → List SlotBeat → Prop)
    (answer : StreamRequest → E → List SlotBeat) (c : List (StreamRequest × E)) (r : StreamRequest) (j : Nat)
    (s : M.State) (out : List SlotBeat) : Prop :=
  Serves c r j s out ∨ (j = r.beats.length ∧ ∃ e, out = answer r e ∧ Rests (c ++ [(r, e)]) s)

/-- **A module that answers one request after the other** at edges that meet `ok`. `Rests c` is what holds
    once the requests `c` are answered, `Serves c r j s out` what holds within the next one. -/
structure Feeding (M : SlotModule) (ok : M.State → M.Cores → Prop) (answer : StreamRequest → E → List SlotBeat) where
  Rests : List (StreamRequest × E) → M.State → Prop
  Serves : List (StreamRequest × E) → StreamRequest → Nat → M.State → List SlotBeat → Prop
  blind : ∀ {s t} (o : Option SlotBeat) (k : M.Cores), M.tready s t = false → M.edge s o t k = M.edge s none t k
  mute : ∀ (s : M.State) (o : Option SlotBeat) (t : Bool), M.sent s o t = M.sent s none t
  silent : ∀ {c s} (t : Bool), Rests c s → M.sent s none t = none
  waits : ∀ {c s k} (t : Bool), Rests c s → ok s k → Rests c (M.edge s none t k)
  begins : ∀ {c s k t} (r : StreamRequest), Rests c s → ok s k → M.tready s t = true →
    Follows Rests Serves answer c r 1 (M.edge s (some (r.first.beat r.more.isEmpty)) t k) []
  goes : ∀ {c r j s out k} (o : Option SlotBeat) (t : Bool), Serves c r j s out → ok s k →
    (o = none ∨ o = r.beats[j]?) →
    Follows Rests Serves answer c r (j + (M.taken s o t).toList.length) (M.edge s o t k)
      (out ++ (M.sent s o t).toList)
  full : ∀ {c r j s out} (t : Bool), Serves c r j s out → r.beats.length ≤ j → M.tready s t = false

variable {ok : M.State → M.Cores → Prop} {answer : StreamRequest → E → List SlotBeat}

/-- **Where a stream is**: between two requests, or within one. -/
inductive Feeding.At (S : Feeding M ok answer) (requests : List StreamRequest) (y : Stream M) : Prop where
  | rests {c rest} (hreq : requests = c.map Prod.fst ++ rest) (htodo : y.todo = rest.flatMap StreamRequest.beats)
      (hsent : y.sent = c.flatMap fun x => answer x.1 x.2) (h : S.Rests c y.slot)
  | serves {c r rest j out} (hreq : requests = c.map Prod.fst ++ r :: rest)
      (htodo : y.todo = r.beats.drop j ++ rest.flatMap StreamRequest.beats)
      (hsent : y.sent = (c.flatMap fun x => answer x.1 x.2) ++ out) (h : S.Serves c r j y.slot out)

variable {S : Feeding M ok answer} {requests : List StreamRequest} {y : Stream M}

theorem feeding_follows {c : List (StreamRequest × E)} {r : StreamRequest} {rest : List StreamRequest} {j : Nat}
    {out : List SlotBeat} (hreq : requests = c.map Prod.fst ++ r :: rest)
    (htodo : y.todo = r.beats.drop j ++ rest.flatMap StreamRequest.beats)
    (hsent : y.sent = (c.flatMap fun x => answer x.1 x.2) ++ out)
    (h : Follows S.Rests S.Serves answer c r j y.slot out) : S.At requests y := by
  rcases h with h | ⟨hj, e, hout, h⟩
  · exact .serves hreq htodo hsent h
  · have hrest : requests = (c ++ [(r, e)]).map Prod.fst ++ rest := by
      rw [hreq, List.map_append, List.append_assoc]
      rfl
    refine .rests hrest ?_ ?_ h
    · rw [htodo, hj, List.drop_length, List.nil_append]
    · rw [hsent, hout, List.flatMap_append, List.flatMap_singleton]

/-- An edge at which nothing is offered, or nothing is taken. -/
theorem feeding_offered {i : StreamIn M} (S : Feeding M ok answer) (h : M.tready y.slot i.mTready = false) :
    M.edge y.slot (y.offered i) i.mTready i.cores = M.edge y.slot none i.mTready i.cores ∧
      M.taken y.slot (y.offered i) i.mTready = none :=
  ⟨S.blind _ _ h, by rw [SlotModule.taken, h]; rfl⟩

theorem feeding_rests {i : StreamIn M} {c : List (StreamRequest × E)} {rest : List StreamRequest}
    (hreq : requests = c.map Prod.fst ++ rest) (htodo : y.todo = rest.flatMap StreamRequest.beats)
    (hsent : y.sent = c.flatMap fun x => answer x.1 x.2) (h : S.Rests c y.slot) (hok : ok y.slot i.cores) :
    S.At requests (y.edge i) := by
  have hmute : M.sent y.slot (y.offered i) i.mTready = none := (S.mute _ _ _).trans (S.silent _ h)
  by_cases htake : M.taken y.slot (y.offered i) i.mTready = none
  · -- nothing is taken
    have hedge : M.edge y.slot (y.offered i) i.mTready i.cores = M.edge y.slot none i.mTready i.cores := by
      cases hready : M.tready y.slot i.mTready with
      | false => exact S.blind _ _ hready
      | true => rw [SlotModule.taken, hready] at htake; rw [show y.offered i = none from htake]
    rw [Stream.edge_eq hedge htake hmute]
    exact .rests hreq htodo ((List.append_nil _).trans hsent) (S.waits _ h hok)
  · cases hready : M.tready y.slot i.mTready with
    | false => exact absurd (feeding_offered S hready).2 htake
    | true =>
        rw [SlotModule.taken, hready, if_pos rfl] at htake
        rcases y.offered_cases i with hnone | ⟨b, bs, hcons, hoff⟩
        · exact absurd hnone htake
        · cases rest with
          | nil => rw [htodo] at hcons; cases hcons
          | cons r rest =>
              obtain ⟨rfl, hbs⟩ : r.first.beat r.more.isEmpty = b ∧ _ = bs := List.cons.inj (htodo.symm.trans hcons)
              have htaken : M.taken y.slot (y.offered i) i.mTready = some (r.first.beat r.more.isEmpty) := by
                rw [SlotModule.taken, hready, if_pos rfl, hoff]
              rw [Stream.edge_eq (by rw [hoff]) htaken hmute]
              refine feeding_follows (j := 1) hreq ?_ ?_ (S.begins r h hok hready)
              · rw [htodo]
                rfl
              · exact hsent ▸ rfl

theorem feeding_serves {i : StreamIn M} {c : List (StreamRequest × E)} {r : StreamRequest}
    {rest : List StreamRequest} {j : Nat} {out : List SlotBeat} (hreq : requests = c.map Prod.fst ++ r :: rest)
    (htodo : y.todo = r.beats.drop j ++ rest.flatMap StreamRequest.beats)
    (hsent : y.sent = (c.flatMap fun x => answer x.1 x.2) ++ out) (h : S.Serves c r j y.slot out)
    (hok : ok y.slot i.cores) : S.At requests (y.edge i) := by
  by_cases hj : r.beats.length ≤ j
  · -- all beats are taken: the next request has to wait
    obtain ⟨hedge, htaken⟩ := feeding_offered (i := i) S (S.full i.mTready h hj)
    have hgo := S.goes none i.mTready h hok (Or.inl rfl)
    rw [SlotModule.taken, ite_self] at hgo
    rw [Stream.edge_eq hedge htaken (S.mute _ _ _)]
    refine feeding_follows (j := j) hreq htodo ?_ hgo
    rw [hsent, List.append_assoc]
  · have hlt : j < r.beats.length := Nat.lt_of_not_le hj
    have hnext : y.todo = r.beats[j] :: (r.beats.drop (j + 1) ++ rest.flatMap StreamRequest.beats) := by
      rw [htodo, List.drop_eq_getElem_cons hlt]
      rfl
    have hoff : y.offered i = none ∨ y.offered i = r.beats[j]? := by
      rcases y.offered_cases i with hnone | ⟨b, bs, hcons, hoff⟩
      · exact Or.inl hnone
      · rw [List.getElem?_eq_getElem hlt, hoff, (List.cons.inj (hnext.symm.trans hcons)).1]
        exact Or.inr rfl
    have hgo := S.goes (y.offered i) i.mTready h hok hoff
    rw [Stream.edge_eq rfl rfl rfl]
    refine feeding_follows hreq ?_ ?_ hgo
    · cases M.taken y.slot (y.offered i) i.mTready with
      | none => exact htodo
      | some b => exact congrArg (List.drop 1) hnext
    · show y.sent ++ _ = _
      rw [hsent, List.append_assoc]

/-- **Every run is somewhere in the list of requests.** -/
theorem feeding_run (S : Feeding M ok answer) (requests : List StreamRequest) {s : M.State} (h : S.Rests [] s)
    (is : List (StreamIn M))
    (hm : Meets Stream.edge (fun y i => ok y.slot i.cores) (.start s requests) is) :
    S.At requests (run Stream.edge (.start s requests) is) := by
  refine run_meets (P := S.At requests) (fun y i hat hok => ?_) (.rests (c := []) rfl rfl rfl h) is hm
  cases hat with
  | rests hreq htodo hsent h => exact feeding_rests hreq htodo hsent h hok
  | serves hreq htodo hsent h => exact feeding_serves hreq htodo hsent h hok

end Feeding

end Frac.Slots
