/-
  File:      Frac/Lib/Ledger.lean
  Subject:   Messages of several beats, collected in several queues and read into one stream. A
             ledger keeps which messages are in the stream, which wait at which queue, and how far
             the one being read has come. Nothing here names a circuit.

  * `Message` -- a beat list whose last beat, and only it, is marked;
  * `Ledger.Holds` -- the ledger explains a stream and the contents of the queues;
  * `Ledger.Holds.whole` -- **an explained stream is whole messages and the beginning of one**;
  * `Ledger.Holds.pop`, `arrive_open`, `arrive_last` -- a beat is read, or comes in.
-/
import Mathlib.Logic.Function.Basic

/-! ## 1. Messages -/

/-- What is left of a message: the last beat, and only it, is marked. -/
inductive Message {α : Type*} : List (α × Bool) → Prop where
  | last (a : α) : Message [(a, true)]
  | more (a : α) {r : List (α × Bool)} (h : Message r) : Message ((a, false) :: r)

variable {P α : Type*}

/-- The beats of a message that has not ended. -/
def openBeats (as : List α) : List (α × Bool) := as.map (·, false)

theorem message_ended (as : List α) (a : α) : Message (openBeats as ++ [(a, true)]) := by
  induction as with
  | nil => exact .last a
  | cons a' as ih => exact .more a' ih

theorem Message.ne_nil {r : List (α × Bool)} (h : Message r) : r ≠ [] := by
  cases h <;> exact List.cons_ne_nil _ _

/-! ## 2. The ledger -/

/-- The messages in the stream; the beats there of the message being read, and its queue; the
    messages waiting at each queue. -/
structure Ledger (P α : Type*) where
  done : List (List (α × Bool))
  pre : List (α × Bool)
  front : Option P
  waiting : P → List (List (α × Bool))

namespace Ledger

def empty : Ledger P α := ⟨[], [], none, fun _ => []⟩

/-- The waiting messages of a queue are complete, the first together with its beats `cut` that are
    in the stream. -/
def Pending (complete : List (List (α × Bool))) (cut : List (α × Bool)) :
    List (List (α × Bool)) → Prop
  | [] => cut = []
  | r :: rs => cut ++ r ∈ complete ∧ ∀ r' ∈ rs, r' ∈ complete

variable [DecidableEq P]

/-- The beats in the stream of the first message of queue `p`. -/
def cut (L : Ledger P α) (p : P) : List (α × Bool) := if L.front = some p then L.pre else []

/-- **The ledger explains the stream and the queues**: queue `p` holds `queue p`, of which `part p`
    belongs to a message that has not ended, and at least `credit p` messages wait there. -/
structure Holds (L : Ledger P α) (complete : List (List (α × Bool))) (stream : List (α × Bool))
    (queue part : P → List (α × Bool)) (credit : P → Nat) : Prop where
  stream : stream = L.done.flatten ++ L.pre
  done : ∀ r ∈ L.done, r ∈ complete
  pending : ∀ p, Pending complete (L.cut p) (L.waiting p)
  message : ∀ p, ∀ r ∈ L.waiting p, Message r
  queue : ∀ p, queue p = (L.waiting p).flatten ++ part p
  credit : ∀ p, credit p ≤ (L.waiting p).length
  idle : L.front = none → L.pre = []

variable {L : Ledger P α} {complete : List (List (α × Bool))} {stream : List (α × Bool)}
  {queue part : P → List (α × Bool)} {credit : P → Nat}

theorem holds_empty :
    (empty : Ledger P α).Holds [] [] (fun _ => []) (fun _ => []) (fun _ => 0) where
  stream := rfl
  done _ h := by cases h
  pending _ := rfl
  message _ _ h := by cases h
  queue _ := rfl
  credit _ := Nat.le_refl _
  idle _ := rfl

theorem Pending.mono {complete' : List (List (α × Bool))} {c : List (α × Bool)}
    {rs : List (List (α × Bool))} (hsub : ∀ r ∈ complete, r ∈ complete')
    (h : Pending complete c rs) : Pending complete' c rs := by
  cases rs with
  | nil => exact h
  | cons r rs => exact ⟨hsub _ h.1, fun r' hr' => hsub _ (h.2 r' hr')⟩

/-- A queue with messages waiting takes one more. -/
theorem Pending.append {c : List (α × Bool)} {rs : List (List (α × Bool))} {r : List (α × Bool)}
    (h : Pending complete c rs) (hr : r ∈ complete) : Pending complete c (rs ++ [r]) := by
  cases rs with
  | nil =>
      have hc : c = [] := h
      subst hc
      exact ⟨hr, fun r' h' => by cases h'⟩
  | cons r0 rs =>
      refine ⟨h.1, fun r' h' => ?_⟩
      rcases List.mem_append.mp h' with h' | h'
      · exact h.2 r' h'
      · rw [List.mem_singleton.mp h']
        exact hr

namespace Holds

variable (h : L.Holds complete stream queue part credit)
include h

/-- **An explained stream is whole messages, one after the other, and the beginning of one.** -/
theorem whole : ∃ (rs : List (List (α × Bool))) (pre : List (α × Bool)), stream = rs.flatten ++ pre ∧
    (∀ r ∈ rs, r ∈ complete) ∧ (pre = [] ∨ ∃ rest, pre ++ rest ∈ complete) := by
  refine ⟨L.done, L.pre, h.stream, h.done, ?_⟩
  cases hf : L.front with
  | none => exact Or.inl (h.idle hf)
  | some p =>
      have hp := h.pending p
      rw [cut, if_pos hf] at hp
      cases hw : L.waiting p with
      | nil => rw [hw] at hp; exact Or.inl hp
      | cons r rs => rw [hw] at hp; exact Or.inr ⟨r, hp.1⟩

theorem waiting_of_credit {p : P} (hc : 0 < credit p) : L.waiting p ≠ [] := by
  intro e
  have := h.credit p
  rw [e] at this
  exact absurd hc (by simpa using this)

theorem waiting_of_part {p : P} (hp : part p = []) (hq : queue p ≠ []) : L.waiting p ≠ [] := by
  intro e
  refine hq ?_
  rw [h.queue p, e, hp]
  rfl

theorem credit_le {credit' : P → Nat} (hc : ∀ p, credit' p ≤ credit p) :
    L.Holds complete stream queue part credit' :=
  { h with credit := fun p => Nat.le_trans (hc p) (h.credit p) }

/-- One queue's messages change, at `p`; what the other queues hold stays as it is. -/
theorem move {p : P} {ws : List (List (α × Bool))} {L' : Ledger P α}
    {complete' : List (List (α × Bool))} {stream' : List (α × Bool)}
    {queue' part' : P → List (α × Bool)} {credit' : P → Nat}
    (hwait : L'.waiting = Function.update L.waiting p ws)
    (hstream : stream' = L'.done.flatten ++ L'.pre) (hdone : ∀ r ∈ L'.done, r ∈ complete')
    (hidle : L'.front = none → L'.pre = []) (hsub : ∀ r ∈ complete, r ∈ complete')
    (hpend : Pending complete' (L'.cut p) ws) (hmsg : ∀ r ∈ ws, Message r)
    (hqueue : queue' p = ws.flatten ++ part' p) (hcredit : credit' p ≤ ws.length)
    (hother : ∀ j, j ≠ p →
      L'.cut j = L.cut j ∧ queue' j = queue j ∧ part' j = part j ∧ credit' j ≤ credit j) :
    L'.Holds complete' stream' queue' part' credit' := by
  have hself : L'.waiting p = ws := by rw [hwait, Function.update_self]
  have hne : ∀ j, j ≠ p → L'.waiting j = L.waiting j := fun j hj => by
    rw [hwait, Function.update_of_ne hj]
  refine ⟨hstream, hdone, fun j => ?_, fun j => ?_, fun j => ?_, fun j => ?_, hidle⟩ <;>
    by_cases hj : j = p
  · rw [hj, hself]
    exact hpend
  · rw [hne j hj, (hother j hj).1]
    exact (h.pending j).mono hsub
  · rw [hj, hself]
    exact hmsg
  · rw [hne j hj]
    exact h.message j
  · rw [hj, hself]
    exact hqueue
  · obtain ⟨-, hq, hp, -⟩ := hother j hj
    rw [hne j hj, hq, hp]
    exact h.queue j
  · rw [hj, hself]
    exact hcredit
  · rw [hne j hj]
    exact Nat.le_trans (hother j hj).2.2.2 (h.credit j)

/-- **The first beat of queue `p` is read into the stream**, where a message waits and no other
    queue's message is being read: the message ends there, or goes on at `p`. -/
theorem pop {p : P} {m : α × Bool} {rest : List (α × Bool)} (hq : queue p = m :: rest)
    (hw : L.waiting p ≠ []) (hf : ∀ p', L.front = some p' → p' = p)
    {credit' : P → Nat} (hc : ∀ p', credit' p' ≤ credit p')
    (hend : m.2 = true → credit' p ≤ credit p - 1) :
    (∃ L' : Ledger P α,
      L'.Holds complete (stream ++ [m]) (Function.update queue p rest) part credit' ∧
      L'.front = if m.2 then none else some p) ∧ (m.2 = false → rest ≠ []) := by
  obtain ⟨cur, more, hw⟩ := List.exists_cons_of_ne_nil hw
  have hcut : L.cut p = L.pre := by
    unfold cut
    cases hfr : L.front with
    | none => simp [h.idle hfr]
    | some p' => simp [hf p' hfr]
  have hcut' : ∀ j, j ≠ p → L.cut j = [] := fun j hj => if_neg fun e => hj (hf j e)
  have hpend := h.pending p
  have hmsg := h.message p
  have hqueue := h.queue p
  have hlen := h.credit p
  rw [hw, hcut] at hpend
  rw [hw] at hmsg hlen
  rw [hq, hw, List.flatten_cons, List.append_assoc] at hqueue
  rw [List.length_cons] at hlen
  -- the beat read is the first of the first message waiting, its last or not
  cases hmsg cur (List.mem_cons_self ..) with
  | last a =>
      obtain ⟨rfl, hrest⟩ := List.cons.inj hqueue
      refine ⟨⟨⟨L.done ++ [L.pre ++ [(a, true)]], [], none, Function.update L.waiting p more⟩,
        h.move rfl (by simp [h.stream]) ?_ (fun _ => rfl) (fun _ => id) ?_
          (fun r hr => hmsg r (by simp [hr])) (by simpa using hrest) ?_ fun j hj => ?_, rfl⟩,
        fun e => by cases e⟩
      · intro r hr
        rcases List.mem_append.mp hr with hr | hr
        · exact h.done r hr
        · rw [List.mem_singleton.mp hr]
          exact hpend.1
      · show Pending complete [] more
        cases more with
        | nil => rfl
        | cons r rs => exact ⟨hpend.2 r (by simp), fun r' h' => hpend.2 r' (by simp [h'])⟩
      · have := hend rfl
        omega
      · exact ⟨(hcut' j hj).symm, Function.update_of_ne hj .., rfl, hc j⟩
  | @more a cur' hr =>
      obtain ⟨rfl, hrest⟩ := List.cons.inj hqueue
      refine ⟨⟨⟨L.done, L.pre ++ [(a, false)], some p, Function.update L.waiting p (cur' :: more)⟩,
        h.move rfl (by simp [h.stream]) h.done (fun e => by cases e) (fun _ => id) ?_ ?_
          (by simpa using hrest) (Nat.le_trans (hc p) hlen) fun j hj => ?_, rfl⟩, fun _ e => ?_⟩
      · rw [cut, if_pos rfl]
        exact ⟨by simpa using hpend.1, hpend.2⟩
      · intro r hr'
        rcases List.mem_cons.mp hr' with rfl | hr'
        · exact hr
        · exact hmsg r (List.mem_cons_of_mem _ hr')
      · rw [hcut' j hj, cut, if_neg (by simpa using Ne.symm hj)]
        exact ⟨rfl, Function.update_of_ne hj .., rfl, hc j⟩
      · rw [hrest] at e
        exact hr.ne_nil (List.append_eq_nil_iff.mp e).1

/-- A beat comes in that does not end its message. -/
theorem arrive_open {p : P} {a : α} {queue' part' : P → List (α × Bool)}
    (hq : ∀ j, queue' j = queue j ++ if j = p then [(a, false)] else [])
    (hp : ∀ j, part' j = part j ++ if j = p then [(a, false)] else []) :
    L.Holds complete stream queue' part' credit :=
  { h with queue := fun j => by rw [hq, hp, h.queue j, List.append_assoc] }

/-- **A beat comes in that ends its message**: the message waits. -/
theorem arrive_last {p : P} {as : List α} {a : α} {queue' part' : P → List (α × Bool)}
    {credit' : P → Nat} (hopen : part p = openBeats as)
    (hq : ∀ j, queue' j = queue j ++ if j = p then [(a, true)] else [])
    (hp : ∀ j, part' j = if j = p then [] else part j)
    (hc : ∀ j, credit' j ≤ credit j + if j = p then 1 else 0) :
    ∃ L' : Ledger P α,
      L'.Holds (complete ++ [openBeats as ++ [(a, true)]]) stream queue' part' credit' ∧
      L'.front = L.front := by
  have hsub : ∀ r ∈ complete, r ∈ complete ++ [openBeats as ++ [(a, true)]] := fun r hr =>
    List.mem_append_left _ hr
  refine ⟨{ L with
      waiting := Function.update L.waiting p (L.waiting p ++ [openBeats as ++ [(a, true)]]) },
    h.move rfl h.stream (fun r hr => hsub r (h.done r hr)) h.idle hsub
      (((h.pending p).mono hsub).append (by simp)) (fun r hr => ?_) ?_ ?_ fun j hj => ?_, rfl⟩
  · rcases List.mem_append.mp hr with hr | hr
    · exact h.message p r hr
    · rw [List.mem_singleton.mp hr]
      exact message_ended as a
  · rw [hq, hp, h.queue p, hopen]
    simp
  · have := Nat.le_trans (hc p) (Nat.add_le_add_right (h.credit p) _)
    simpa using this
  · have := hc j
    rw [if_neg hj, Nat.add_zero] at this
    exact ⟨rfl, by rw [hq, if_neg hj, List.append_nil], by rw [hp, if_neg hj], this⟩

end Holds

end Ledger
