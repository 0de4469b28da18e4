/-
  File:      Frac/Slots/Resets.lean
  Subject:   A slot module fed with one request after the other, and reset at any edge. A reset discards
             the request in progress: the beats of it that were not taken are not offered again.

  * `ResetStream` -- the module, the requests, and for every request that was begun what was sent for it
    and whether a reset cut it (`Attempt`);
  * `StreamAnswers` -- **what is asked for**: every beat belongs to a request that was begun, whole where no
    reset cut it;
  * `Server` -- a module with a service for every request; `server_run` -- **it answers in every run**,
    and gets through the requests when nothing is held back.
-/
import Frac.Slots.Stream

namespace Frac.Slots

open Clocked

variable {M : SlotModule}

/-! ## 1. The stream -/

/-- A request that was begun. -/
structure Attempt where
  request : StreamRequest
  sent : List SlotBeat
  cut : Bool

/-- The module, the beats left of the request begun last, the requests not begun, the requests begun
    before the last, the last one unless a reset has come since, and all beats sent. -/
structure ResetStream (M : SlotModule) where
  slot : M.State
  todo : List SlotBeat
  rest : List StreamRequest
  past : List Attempt
  now : Option Attempt
  out : List SlotBeat

/-- One clock edge's inputs. -/
structure ResetIn (M : SlotModule) extends StreamIn M where
  rst : Bool

namespace ResetStream

def start (s : M.State) (requests : List StreamRequest) : ResetStream M := ⟨s, [], requests, [], none, []⟩

/-- The beat that comes next. -/
def next (y : ResetStream M) : Option SlotBeat := (y.todo ++ y.rest.flatMap StreamRequest.beats).head?

def offered (y : ResetStream M) (i : ResetIn M) : Option SlotBeat := if i.valid then y.next else none

/-- A beat is sent: for the request begun last. -/
def send (y : ResetStream M) (b : SlotBeat) : ResetStream M :=
  { y with
    now := y.now.map fun a => { a with sent := a.sent ++ [b] }
    out := y.out ++ [b] }

/-- The next beat is taken; it may begin a request. -/
def take (y : ResetStream M) : ResetStream M :=
  match y.todo, y.rest with
  | _ :: todo, _ => { y with todo := todo }
  | [], r :: rest =>
    { y with
      todo := r.beats.tail
      rest := rest
      past := y.past ++ y.now.toList
      now := some ⟨r, [], false⟩ }
  | [], [] => y

/-- What the handshakes of an edge do. -/
def transfer (y : ResetStream M) (taken sent : Option SlotBeat) : ResetStream M :=
  let y := sent.elim y y.send
  if taken.isSome then y.take else y

/-- A reset ends the request in progress. It is cut unless all its beats were taken and a beat was sent
    for every data line. -/
def discard (y : ResetStream M) : ResetStream M :=
  { y with
    todo := []
    past := y.past ++ (y.now.map fun a =>
      { a with cut := !(y.todo.isEmpty && decide (a.sent.length = a.request.data.length)) }).toList
    now := none }

/-- One clock edge with `rst` low. -/
def edge (y : ResetStream M) (i : ResetIn M) : ResetStream M :=
  { y.transfer (M.taken y.slot (y.offered i) i.mTready) (M.sent y.slot (y.offered i) i.mTready) with
    slot := M.edge y.slot (y.offered i) i.mTready i.cores }

/-- **One clock edge**; `rst` takes the module to where a reset takes it. -/
def clock (rst : M.State → M.State) (y : ResetStream M) (i : ResetIn M) : ResetStream M :=
  if i.rst then { (y.edge i).discard with slot := rst y.slot } else y.edge i

/-- The edge holds nothing back. -/
def willing (y : ResetStream M) (i : ResetIn M) : Bool := i.valid && M.willing y.slot i.mTready i.cores

end ResetStream

/-- **Every request is answered**: none is left out, every beat was sent for one that was begun, in full
    where no reset cut it. -/
structure StreamAnswers (answer : StreamRequest → List SlotBeat) (requests : List StreamRequest)
    (y : ResetStream M) : Prop where
  requests : (y.past ++ y.now.toList).map (·.request) ++ y.rest = requests
  out : y.out = (y.past ++ y.now.toList).flatMap (·.sent)
  whole : ∀ a ∈ y.past, a.cut = false → a.sent = answer a.request
  begun : ∀ a ∈ y.past ++ y.now.toList, a.sent <+: answer a.request

/-! ## 2. Servers -/

/-- **A module with a service for every request**, and what a stream asks of it besides: an offer that is
    not taken changes nothing, a module that takes a new request is done with the last one, and one that
    is idle stays so. -/
structure Server (M : SlotModule) (ok : StreamRequest → Prop) (answer : StreamRequest → List SlotBeat) where
  service : ∀ r, ok r → Service M r.beats (· = answer r)
  bound : StreamRequest → Nat
  within : ∀ r h, (service r h).bound ≤ bound r
  length : ∀ r, ok r → (answer r).length = r.data.length
  blind : ∀ {s t} o c, M.tready s t = false → M.edge s o t c = M.edge s none t c
  mute : ∀ s o t, M.sent s o t = M.sent s none t
  begun : ∀ {r h j s out}, (service r h).Inv j s out → out <+: answer r
  silent : ∀ {r h s out} t, (service r h).Inv 0 s out → M.sent s none t = none
  ends : ∀ {r h s out t}, (service r h).Inv r.beats.length s out → M.tready s t = true →
    out = answer r ∧ M.Idle s
  all : ∀ {r h j s out}, (service r h).Inv j s out → (service r h).rank j s = 0 → j = r.beats.length
  rests : ∀ {s} t c, M.Idle s → M.Idle (M.edge s none t c) ∧ M.sent s none t = none

section Server

variable {ok : StreamRequest → Prop} {answer : StreamRequest → List SlotBeat}

/-- The edges that requests need. -/
def Server.cost (S : Server M ok answer) (rs : List StreamRequest) : Nat := (rs.map S.bound).sum

/-- **Where the stream is**: everything is done, the next request is waited for, or one is served. -/
inductive Server.At (S : Server M ok answer) (m : Nat) (y : ResetStream M) : Prop where
  | rest (htodo : y.todo = []) (hrest : y.rest = []) (hidle : M.Idle y.slot)
      (hnow : ∀ a ∈ y.now, a.sent = answer a.request) : At S m y
  | waits {r later} {h : ok r} (htodo : y.todo = []) (hrest : y.rest = r :: later)
      (hinv : (S.service r h).Inv 0 y.slot []) (hnow : ∀ a ∈ y.now, a.sent = answer a.request)
      (hm : (S.service r h).rank 0 y.slot + S.cost later ≤ m) : At S m y
  | serves {a j} {h : ok a.request} (hnow : y.now = some a) (hj : j ≤ a.request.beats.length)
      (htodo : y.todo = a.request.beats.drop j) (hinv : (S.service a.request h).Inv j y.slot a.sent)
      (hm : (S.service a.request h).rank j y.slot + S.cost y.rest ≤ m) : At S m y

/-- The books of the stream. -/
structure Server.Books (answer : StreamRequest → List SlotBeat) (requests : List StreamRequest)
    (y : ResetStream M) : Prop where
  requests : (y.past ++ y.now.toList).map (·.request) ++ y.rest = requests
  out : y.out = (y.past ++ y.now.toList).flatMap (·.sent)
  whole : ∀ a ∈ y.past, a.cut = false → a.sent = answer a.request
  begun : ∀ a ∈ y.past, a.sent <+: answer a.request

theorem beats_ne_nil (r : StreamRequest) : r.beats ≠ [] := List.cons_ne_nil _ _

variable {S : Server M ok answer} {requests : List StreamRequest} {y : ResetStream M} {m : Nat}

/-- A module that is idle may begin with the next request. -/
theorem idle_next (hok : ∀ r ∈ y.rest, ok r) (hidle : M.Idle y.slot) (hm : S.cost y.rest ≤ m) :
    y.rest = [] ∨ ∃ r later, ∃ h : ok r, y.rest = r :: later ∧ (S.service r h).Inv 0 y.slot [] ∧
      (S.service r h).rank 0 y.slot + S.cost later ≤ m := by
  cases hrest : y.rest with
  | nil => exact Or.inl rfl
  | cons r later =>
      have h : ok r := hok r (by rw [hrest]; exact List.mem_cons_self ..)
      obtain ⟨hinv, hrank⟩ := (S.service r h).start hidle
      have hbound := S.within r h
      rw [hrest, Server.cost, List.map_cons, List.sum_cons] at hm
      refine Or.inr ⟨r, later, h, rfl, hinv, ?_⟩
      rw [Server.cost]
      omega

theorem at_idle (hok : ∀ r ∈ y.rest, ok r) (htodo : y.todo = []) (hidle : M.Idle y.slot)
    (hnow : ∀ a ∈ y.now, a.sent = answer a.request) (hm : S.cost y.rest ≤ m) : S.At m y := by
  rcases idle_next hok hidle hm with hrest | ⟨r, later, h, hrest, hinv, hrank⟩
  · exact .rest htodo hrest hidle hnow
  · exact .waits htodo hrest hinv hnow hrank

/-- What was sent for the last request begins its answer. -/
theorem at_begun (hat : S.At m y) : ∀ a ∈ y.now, a.sent <+: answer a.request := by
  intro a ha
  cases hat with
  | rest _ _ _ hnow => exact hnow a ha ▸ List.prefix_rfl
  | waits _ _ _ hnow => exact hnow a ha ▸ List.prefix_rfl
  | serves hnow _ _ hinv =>
      rw [hnow] at ha
      cases ha
      exact S.begun hinv

theorem at_mono {m' : Nat} (hat : S.At m y) (hle : m ≤ m') : S.At m' y := by
  cases hat with
  | rest h1 h2 h3 h4 => exact .rest h1 h2 h3 h4
  | waits h1 h2 h3 h4 hm => exact .waits h1 h2 h3 h4 (hm.trans hle)
  | serves h1 h2 h3 h4 hm => exact .serves h1 h2 h3 h4 (hm.trans hle)

/-! ## 3. One edge -/

/-- What an edge keeps of the stream. -/
def Server.Goes (S : Server M ok answer) (requests : List StreamRequest) (m : Nat) (y : ResetStream M)
    (i : ResetIn M) : Prop :=
  S.At (if y.willing i then m - 1 else m) (y.edge i) ∧ Server.Books answer requests (y.edge i)

variable {i : ResetIn M}

/-- Nothing is taken and nothing sent. -/
theorem edge_silent (ht : M.taken y.slot (y.offered i) i.mTready = none)
    (hs : M.sent y.slot (y.offered i) i.mTready = none) :
    y.edge i = { y with slot := M.edge y.slot (y.offered i) i.mTready i.cores } := by
  rw [ResetStream.edge, ht, hs]
  rfl

/-- The stream with what is sent booked for the request `a`. -/
def ResetStream.booked (y : ResetStream M) (a : Attempt) (sent : Option SlotBeat) : ResetStream M :=
  { y with
    now := some { a with sent := a.sent ++ sent.toList }
    out := y.out ++ sent.toList }

/-- What is sent is booked for the request begun last. -/
theorem transfer_sends {a : Attempt} (hnow : y.now = some a) (taken sent : Option SlotBeat) :
    y.transfer taken sent =
      if taken.isSome then (y.booked a sent).take else y.booked a sent := by
  have hbooked : sent.elim y y.send = y.booked a sent := by
    cases sent with
    | none =>
        show y = { y with now := some { a with sent := a.sent ++ [] }, out := y.out ++ [] }
        rw [List.append_nil, List.append_nil, ← hnow]
    | some b =>
        rw [Option.elim_some, ResetStream.send, hnow]
        rfl
  exact congrArg (fun z : ResetStream M => if taken.isSome then z.take else z) hbooked

/-- A beat of a request under way is taken. -/
theorem take_more {b : SlotBeat} {bs : List SlotBeat} (htodo : y.todo = b :: bs) :
    y.take = { y with todo := bs } := by
  simp only [ResetStream.take, htodo]

/-- The first beat of a request is taken. -/
theorem take_begins {r : StreamRequest} {later : List StreamRequest} (htodo : y.todo = [])
    (hrest : y.rest = r :: later) :
    y.take = { y with
      todo := r.beats.tail
      rest := later
      past := y.past ++ y.now.toList
      now := some ⟨r, [], false⟩ } := by
  simp only [ResetStream.take, htodo, hrest]

theorem rank_drops {r r' c : Nat} {w : Bool} (hm : r + c ≤ m) (hle : r' ≤ r) (hlt : w = true → r' < r) :
    r' + c ≤ if w then m - 1 else m := by
  split
  · rename_i hw
    have := hlt hw
    omega
  · omega

/-- The module rests, and nothing is offered to it. -/
theorem goes_rest (hb : Server.Books answer requests y) (htodo : y.todo = []) (hrest : y.rest = [])
    (hidle : M.Idle y.slot) (hnow : ∀ a ∈ y.now, a.sent = answer a.request) :
    S.Goes requests m y i := by
  have hoff : y.offered i = none := by
    rw [ResetStream.offered, ResetStream.next, htodo, hrest]
    exact ite_self _
  obtain ⟨hidle', hsent⟩ := S.rests i.mTready i.cores hidle
  have hedge := edge_silent (y := y) (i := i) (by rw [hoff]; exact ite_self _) (by rw [hoff]; exact hsent)
  rw [Server.Goes, hedge, hoff]
  exact ⟨.rest htodo hrest hidle' hnow, ⟨hb.requests, hb.out, hb.whole, hb.begun⟩⟩

/-- The next request is waited for; it may begin. -/
theorem goes_waits {r : StreamRequest} {later : List StreamRequest} {h : ok r}
    (hb : Server.Books answer requests y) (htodo : y.todo = []) (hrest : y.rest = r :: later)
    (hinv : (S.service r h).Inv 0 y.slot []) (hnow : ∀ a ∈ y.now, a.sent = answer a.request)
    (hm : (S.service r h).rank 0 y.slot + S.cost later ≤ m) : S.Goes requests m y i := by
  have hnext : y.next = r.beats[0]? := by
    rw [ResetStream.next, htodo, hrest]
    rfl
  have hoff : y.offered i = none ∨ y.offered i = r.beats[0]? := by
    rw [ResetStream.offered, hnext]
    cases i.valid
    · exact Or.inl rfl
    · exact Or.inr rfl
  have hvalid : y.willing i = true → y.offered i = r.beats[0]? ∧ M.willing y.slot i.mTready i.cores = true := by
    intro hw
    rw [ResetStream.willing, Bool.and_eq_true] at hw
    rw [ResetStream.offered, if_pos hw.1, hnext]
    exact ⟨rfl, hw.2⟩
  have hrank : (S.service r h).rank 0 y.slot ≠ 0 := fun h0 =>
    Nat.succ_ne_zero _ (S.all hinv h0).symm
  have hsent : M.sent y.slot (y.offered i) i.mTready = none := by
    rw [S.mute]
    exact S.silent _ hinv
  obtain ⟨hinv', hle, hlt⟩ := (S.service r h).edge hinv (y.offered i) i.mTready i.cores hoff
  rw [hsent] at hinv'
  have hdrop := rank_drops hm hle fun hw => hlt (hvalid hw).1 (hvalid hw).2 hrank
  cases ht : M.taken y.slot (y.offered i) i.mTready with
  | none =>
      rw [ht] at hinv' hdrop
      rw [Server.Goes, edge_silent ht hsent]
      exact ⟨.waits htodo hrest hinv' hnow hdrop, ⟨hb.requests, hb.out, hb.whole, hb.begun⟩⟩
  | some b =>
      rw [ht] at hinv' hdrop
      have htransfer : y.transfer (some b) none = y.take := rfl
      rw [Server.Goes, ResetStream.edge, ht, hsent, htransfer, take_begins htodo hrest]
      refine ⟨.serves rfl (Nat.succ_le_of_lt (List.length_pos_iff.mpr (beats_ne_nil r)))
        rfl hinv' hdrop, ?_, ?_, fun a ha => ?_, fun a ha => ?_⟩
      · show (y.past ++ y.now.toList ++ [(⟨r, [], false⟩ : Attempt)]).map _ ++ later = requests
        rw [List.map_append, List.append_assoc, ← hb.requests, hrest]
        rfl
      · show y.out = (y.past ++ y.now.toList ++ [(⟨r, [], false⟩ : Attempt)]).flatMap _
        rw [List.flatMap_append, ← hb.out]
        exact (List.append_nil _).symm
      · intro hcut
        rcases List.mem_append.mp ha with ha | ha
        · exact hb.whole a ha hcut
        · exact hnow a (Option.mem_toList.mp ha)
      · rcases List.mem_append.mp ha with ha | ha
        · exact hb.begun a ha
        · exact hnow a (Option.mem_toList.mp ha) ▸ List.prefix_rfl

/-- The offer, as the service of the request under way sees it: the beats of the next request are none
    of its business, and not taken. -/
theorem serves_offer (S : Server M ok answer) {r : StreamRequest} {j : Nat}
    (htodo : y.todo = r.beats.drop j)
    (hbusy : j < r.beats.length ∨ M.tready y.slot i.mTready = false) :
    ∃ o, (o = none ∨ o = r.beats[j]?) ∧ (i.valid = true → o = r.beats[j]?) ∧
      M.edge y.slot (y.offered i) i.mTready i.cores = M.edge y.slot o i.mTready i.cores ∧
      M.sent y.slot (y.offered i) i.mTready = M.sent y.slot o i.mTready ∧
      M.taken y.slot (y.offered i) i.mTready = M.taken y.slot o i.mTready ∧
      ((M.taken y.slot o i.mTready).isSome = true → ∃ b, y.todo = b :: r.beats.drop (j + 1)) := by
  by_cases hlt : j < r.beats.length
  · have hcons : r.beats.drop j = r.beats[j] :: r.beats.drop (j + 1) := List.drop_eq_getElem_cons hlt
    have hnext : y.next = r.beats[j]? := by
      rw [ResetStream.next, htodo, hcons, List.getElem?_eq_getElem hlt]
      rfl
    refine ⟨y.offered i, ?_, fun hv => ?_, rfl, rfl, rfl, fun _ => ⟨_, htodo.trans hcons⟩⟩
    · rw [ResetStream.offered, hnext]
      cases i.valid
      · exact Or.inl rfl
      · exact Or.inr rfl
    · rw [ResetStream.offered, if_pos hv, hnext]
  · have hready := hbusy.resolve_left hlt
    have hnone : r.beats[j]? = none := List.getElem?_eq_none (Nat.le_of_not_lt hlt)
    have htaken : ∀ o, M.taken y.slot o i.mTready = none := fun o => by
      rw [SlotModule.taken, hready]
      rfl
    refine ⟨none, Or.inl rfl, fun _ => hnone.symm, S.blind _ _ hready, S.mute _ _ _, ?_, fun h => ?_⟩
    · rw [htaken, htaken]
    · rw [htaken] at h
      cases h

/-- The request under way gets on. -/
theorem goes_serves {a : Attempt} {j : Nat} {h : ok a.request} (hb : Server.Books answer requests y)
    (hnow : y.now = some a) (hj : j ≤ a.request.beats.length) (htodo : y.todo = a.request.beats.drop j)
    (hinv : (S.service a.request h).Inv j y.slot a.sent)
    (hm : (S.service a.request h).rank j y.slot + S.cost y.rest ≤ m)
    (hbusy : j < a.request.beats.length ∨ M.tready y.slot i.mTready = false)
    (hrank : (S.service a.request h).rank j y.slot ≠ 0) : S.Goes requests m y i := by
  obtain ⟨o, hoff, hvalid, hedge, hsent, htaken, htake⟩ := serves_offer S htodo hbusy
  obtain ⟨hinv', hle, hlt⟩ := (S.service a.request h).edge hinv o i.mTready i.cores hoff
  have hdrop := rank_drops (w := y.willing i) hm hle fun hw => by
    rw [ResetStream.willing, Bool.and_eq_true] at hw
    exact hlt (hvalid hw.1) hw.2 hrank
  have hbooks : ∀ z : ResetStream M, z.past = y.past → z.rest = y.rest →
      z.now = some { a with sent := a.sent ++ (M.sent y.slot o i.mTready).toList } →
      z.out = y.out ++ (M.sent y.slot o i.mTready).toList → Server.Books answer requests z := by
    intro z h1 h2 h3 h4
    have hreq := hb.requests
    have hout := hb.out
    rw [hnow] at hreq hout
    refine ⟨?_, ?_, h1 ▸ hb.whole, h1 ▸ hb.begun⟩
    · rw [h1, h2, h3, ← hreq]
      simp
    · rw [h1, h3, h4, hout]
      simp
  rw [Server.Goes, ResetStream.edge, transfer_sends hnow, hedge, hsent, htaken]
  cases ht : M.taken y.slot o i.mTready with
  | none =>
      rw [ht] at hinv' hdrop
      exact ⟨.serves (a := { a with sent := a.sent ++ (M.sent y.slot o i.mTready).toList }) (h := h) rfl hj
        htodo hinv' hdrop, hbooks _ rfl rfl rfl rfl⟩
  | some b =>
      rw [ht] at hinv' hdrop htake
      obtain ⟨b', hb'⟩ := htake rfl
      have hlt' : j < a.request.beats.length := by
        refine Nat.lt_of_not_le fun hge => ?_
        rw [htodo, List.drop_of_length_le hge] at hb'
        cases hb'
      rw [Option.isSome_some, if_pos rfl, take_more (y := y.booked a _) hb']
      exact ⟨.serves (a := { a with sent := a.sent ++ (M.sent y.slot o i.mTready).toList }) (h := h) rfl hlt'
        rfl hinv' hdrop, hbooks _ rfl rfl rfl rfl⟩

/-- **One edge with `rst` low.** -/
theorem server_edge (hok : ∀ r ∈ requests, ok r) (hat : S.At m y) (hb : Server.Books answer requests y)
    (i : ResetIn M) : S.Goes requests m y i := by
  have hlater : ∀ r ∈ y.rest, ok r := fun r hr => hok r (by
    rw [← hb.requests]
    exact List.mem_append_right _ hr)
  -- a module that is done with the request is idle, whatever was kept of it
  have hidle : y.todo = [] → M.Idle y.slot → (∀ a ∈ y.now, a.sent = answer a.request) →
      S.cost y.rest ≤ m → S.Goes requests m y i := by
    intro htodo hidle hnow hm
    rcases idle_next hlater hidle hm with hrest | ⟨r, later, h, hrest, hinv, hrank⟩
    · exact goes_rest hb htodo hrest hidle hnow
    · exact goes_waits hb htodo hrest hinv hnow hrank
  cases hat with
  | rest h1 h2 h3 h4 => exact goes_rest hb h1 h2 h3 h4
  | waits h1 h2 h3 h4 h5 => exact goes_waits hb h1 h2 h3 h4 h5
  | @serves a j h hnow hj htodo hinv hm =>
      have hdone : a.sent = answer a.request ∧ M.Idle y.slot → j = a.request.beats.length →
          S.Goes requests m y i := by
        rintro ⟨hsent, hslot⟩ rfl
        refine hidle (htodo.trans List.drop_length) hslot (fun a' ha' => ?_) (by omega)
        rw [hnow] at ha'
        cases ha'
        exact hsent
      by_cases hrank : (S.service a.request h).rank j y.slot = 0
      · exact hdone ((S.service a.request h).finish hinv hrank) (S.all hinv hrank)
      by_cases hlt : j < a.request.beats.length
      · exact goes_serves hb hnow hj htodo hinv hm (Or.inl hlt) hrank
      obtain rfl : j = a.request.beats.length := by omega
      cases hready : M.tready y.slot i.mTready with
      | false => exact goes_serves hb hnow hj htodo hinv hm (Or.inr hready) hrank
      | true => exact hdone (S.ends hinv hready) rfl

/-! ## 4. Every run -/

variable {rst : M.State → M.State}

/-- A request for which as many beats were sent as it has data lines is answered. -/
theorem at_complete (hat : S.At m y) {a : Attempt} (ha : y.now = some a)
    (hlen : a.sent.length = a.request.data.length) : a.sent = answer a.request := by
  cases hat with
  | rest _ _ _ hnow => exact hnow a ha
  | waits _ _ _ hnow => exact hnow a ha
  | @serves a' j h hnow _ _ hinv =>
      obtain rfl : a' = a := Option.some_injective _ (hnow.symm.trans ha)
      exact (S.begun hinv).eq_of_length (hlen.trans (S.length _ h).symm)

/-- **A reset.** -/
theorem server_reset (hat : S.At m y) (hb : Server.Books answer requests y) (s : M.State) :
    Server.Books answer requests { y.discard with slot := s } := by
  have hbegun := at_begun hat
  obtain ⟨hreq, hout, hwhole, hbefore⟩ := hb
  cases hnow : y.now with
  | none =>
      have hpast : y.discard.past = y.past := by
        rw [ResetStream.discard, hnow]
        exact List.append_nil _
      rw [hnow] at hreq hout
      refine ⟨?_, ?_, ?_, ?_⟩
      · show (y.discard.past ++ []).map _ ++ y.rest = requests
        rw [hpast]
        exact hreq
      · show y.out = (y.discard.past ++ []).flatMap _
        rw [hpast]
        exact hout
      · exact hpast.symm ▸ hwhole
      · exact hpast.symm ▸ hbefore
  | some a =>
      have hpast : y.discard.past = y.past ++
          [{ a with cut := !(y.todo.isEmpty && decide (a.sent.length = a.request.data.length)) }] := by
        rw [ResetStream.discard, hnow]
        rfl
      rw [hnow] at hreq hout
      refine ⟨?_, ?_, fun a' ha' => ?_, fun a' ha' => ?_⟩
      · show (y.discard.past ++ []).map _ ++ y.rest = requests
        rw [hpast, List.append_nil, ← hreq]
        simp
      · show y.out = (y.discard.past ++ []).flatMap _
        rw [hpast, List.append_nil, hout]
        simp
      · intro hcut
        rcases List.mem_append.mp (hpast ▸ ha') with ha' | ha'
        · exact hwhole a' ha' hcut
        · obtain rfl := List.mem_singleton.mp ha'
          have hdone := Bool.of_not_eq_false fun e => Bool.noConfusion (hcut.symm.trans (congrArg not e))
          rw [Bool.and_eq_true, decide_eq_true_eq] at hdone
          exact (at_complete hat hnow hdone.2 : a.sent = answer a.request)
      · rcases List.mem_append.mp (hpast ▸ ha') with ha' | ha'
        · exact hbefore a' ha'
        · obtain rfl := List.mem_singleton.mp ha'
          exact hbegun a hnow

theorem cost_append (S : Server M ok answer) (rs rs' : List StreamRequest) :
    S.cost (rs ++ rs') = S.cost rs + S.cost rs' := by
  rw [Server.cost, List.map_append, List.sum_append]
  rfl

/-- **One edge.** -/
theorem server_clock (hrst : ∀ s, M.Idle (rst s)) (hok : ∀ r ∈ requests, ok r)
    (hat : S.At (S.cost requests) y) (hb : Server.Books answer requests y) (i : ResetIn M) :
    S.At (S.cost requests) (y.clock rst i) ∧ Server.Books answer requests (y.clock rst i) := by
  obtain ⟨hat', hb'⟩ := server_edge hok hat hb i
  unfold ResetStream.clock
  cases i.rst with
  | false =>
      refine ⟨at_mono hat' ?_, hb'⟩
      split
      · exact Nat.sub_le _ _
      · exact Nat.le_refl _
  | true =>
      rw [if_pos rfl]
      have hbooks := server_reset hat' hb' (rst y.slot)
      refine ⟨at_idle (fun r hr => hok r ?_) rfl (hrst y.slot) (fun a ha => by cases ha) ?_, hbooks⟩
      · rw [← hbooks.requests]
        exact List.mem_append_right _ hr
      · rw [← hbooks.requests, cost_append]
        exact Nat.le_add_left _ _

/-- **The module answers the requests in every run**, with any gaps, stalls and resets: from a reset of
    any state. -/
theorem server_run (S : Server M ok answer) (hrst : ∀ s, M.Idle (rst s)) (hok : ∀ r ∈ requests, ok r)
    (s : M.State) (is : List (ResetIn M)) :
    S.At (S.cost requests) (run (ResetStream.clock rst) (.start (rst s) requests) is) ∧
      Server.Books answer requests (run (ResetStream.clock rst) (.start (rst s) requests) is) := by
  refine run_meets (P := fun y => S.At (S.cost requests) y ∧ Server.Books answer requests y)
    (fun y i h _ => server_clock hrst hok h.1 h.2 i) ⟨?_, ?_⟩ is (Meets.of_forall (fun _ _ => trivial) _ is)
  · exact at_idle hok rfl (hrst s) (fun a ha => by cases ha) (Nat.le_refl _)
  · exact ⟨rfl, rfl, fun a ha => absurd ha List.not_mem_nil, fun a ha => absurd ha List.not_mem_nil⟩

theorem answers_of_at (hat : S.At m y) (hb : Server.Books answer requests y) : StreamAnswers answer requests y := by
  refine ⟨hb.requests, hb.out, hb.whole, fun a ha => ?_⟩
  rcases List.mem_append.mp ha with ha | ha
  · exact hb.begun a ha
  · exact at_begun hat a (Option.mem_toList.mp ha)

/-- A stream that needs no more edges has come through. -/
theorem at_zero (hok : ∀ r ∈ requests, ok r) (hat : S.At 0 y) (hb : Server.Books answer requests y) :
    y.rest = [] ∧ ∀ a ∈ y.now, a.sent = answer a.request := by
  cases hat with
  | rest _ hrest _ hnow => exact ⟨hrest, hnow⟩
  | waits _ _ hinv _ hm => exact absurd (S.all hinv (by omega)).symm (Nat.succ_ne_zero _)
  | @serves a j h hnow _ _ hinv hm =>
      obtain ⟨hsent, hidle⟩ := (S.service a.request h).finish hinv (by omega)
      refine ⟨?_, fun a' ha' => ?_⟩
      · have hlater : ∀ r ∈ y.rest, ok r := fun r hr => hok r (by
          rw [← hb.requests]
          exact List.mem_append_right _ hr)
        rcases idle_next (S := S) (m := 0) hlater hidle (by omega) with hrest | ⟨r, later, h', -, hinv', hrank⟩
        · exact hrest
        · exact absurd (S.all hinv' (by omega)).symm (Nat.succ_ne_zero _)
      · rw [hnow] at ha'
        cases ha'
        exact hsent

/-- **And it gets through them**: after enough edges without a reset that hold nothing back, every
    request has been begun and the last one is answered. -/
theorem server_finishes (S : Server M ok answer) (hrst : ∀ s, M.Idle (rst s))
    (hok : ∀ r ∈ requests, ok r) (s : M.State) (is js : List (ResetIn M)) (hjs : ∀ j ∈ js, j.rst = false)
    (henough : S.cost requests ≤ count (ResetStream.clock rst) ResetStream.willing
      (run (ResetStream.clock rst) (.start (rst s) requests) is) js) :
    (run (ResetStream.clock rst) (.start (rst s) requests) (is ++ js)).rest = [] ∧
      ∀ a ∈ (run (ResetStream.clock rst) (.start (rst s) requests) (is ++ js)).now,
        a.sent = answer a.request := by
  obtain ⟨hat, hb⟩ := server_run S hrst hok s is
  rw [run_append]
  have hstep : ∀ m y (i : ResetIn M), S.At m y ∧ Server.Books answer requests y → i.rst = false →
      S.At (if y.willing i then m - 1 else m) (y.clock rst i) ∧
        Server.Books answer requests (y.clock rst i) := fun m y i h hi => by
    rw [ResetStream.clock, hi]
    exact server_edge hok h.1 h.2 i
  have hcount := run_counted (P := fun m y => S.At m y ∧ Server.Books answer requests y) hstep ⟨hat, hb⟩ js
    (Meets.of_mem hjs)
  rw [Nat.sub_eq_zero_of_le henough] at hcount
  exact at_zero hok hcount.1 hcount.2

end Server

end Frac.Slots
