/-
  File:      Frac/Reassembly/Ownership.lean
  Subject:   Sessions and queues: whatever is kept about the request under way on a session, its
             queue keeps the scheduler's side of it. Shared by the developments that follow
             requests through the scheduler, each with its own notion of what is kept.

  * `Books` -- what a queue keeps of the request it is filled by; `books_take_*` -- what an
    accepted beat does to the books;
  * `Owns` -- every session with a request owns one queue, every other queue is free;
    `owns_update` -- one session and its queue move on together;
  * `route_owned`, `route_unowned` -- where the beat of such a session, or a new one's, goes.
-/
import Frac.Reassembly.Intake

namespace Frac.Reassembly

variable {n : Nat} {τ : Type}

/-! ## 1. Books -/

/-- What a queue keeps of the request it is filled by. -/
structure Books where
  qmeta : QMeta
  counter : BitVec 32
  counterInst : BitVec 32

def QueueRegs.books (q : QueueRegs τ) : Books := ⟨q.qmeta, q.counter, q.counterInst⟩

def InRegs.books (r : InRegs n τ) (k : Fin n) : Books := (r.queue k).books

/-- The books of a free queue. -/
def Books.closed : Books := ⟨QMeta.free, 0, 0⟩

theorem books_count (q : QueueRegs τ) (b : RxBeat τ) (d : QBeat τ) (acc : BitVec 32) :
    (q.count b d acc).books =
      if q.completes b acc then Books.closed else ⟨q.qmeta, q.counter, countedBytes b acc⟩ := by
  rw [count_eq]
  split <;> rfl

section Take

variable [FifoKind]

theorem books_update (s : Sched n τ) (r : InRegs n τ) (k : Fin n) (q : QueueRegs τ)
    (hq : r.queue = Function.update s.cleared k q) :
    r.books = Function.update s.inp.books k q.books := by
  funext j
  unfold InRegs.books
  rw [hq]
  by_cases h : j = k
  · subst h
    simp
  · simp [h]
    rfl

variable {s : Sched n τ} {b : RxBeat τ} {k : Fin n}

theorem books_idle (s : Sched n τ) : s.idle.books = s.inp.books := rfl

theorem books_take_single (h : s.route b = .single) : (s.take b).books = s.inp.books := by
  unfold Sched.take
  rw [h]
  rfl

theorem books_take_match (h : s.route b = .matchQueue k) :
    (s.take b).books = Function.update s.inp.books k
      (if (s.inp.queue k).completes b (s.inp.queue k).counterInst then Books.closed
        else ⟨(s.inp.queue k).qmeta, (s.inp.queue k).counter,
          countedBytes b (s.inp.queue k).counterInst⟩) := by
  rw [books_update s _ k ((s.cleared k).extend b) (by rw [Sched.take, h])]
  rw [QueueRegs.extend, books_count]
  rfl

theorem books_take_alloc (h : s.route b = .alloc k) :
    (s.take b).books = Function.update s.inp.books k
      (if b.tlast && decide (0 + b.length.setWidth 32 ≥ b.packetSize) then Books.closed
        else ⟨⟨b.dstPort, b.workload, b.connid⟩, b.packetSize, countedBytes b 0⟩) := by
  rw [books_update s _ k ((s.cleared k).allocate b) (by rw [Sched.take, h])]
  rw [QueueRegs.allocate, books_count]
  rfl

end Take

/-! ## 2. Owning a queue -/

/-- **Every session with a request owns one queue, and every other queue is free.** `o` is the
    request under way on each session, `R` what its queue's books say of it. -/
structure Owns {α : Type} (o : BitVec 16 → Option α) (R : Books → α → Prop)
    (books : Fin n → Books) : Prop where
  queue : ∀ k, (books k).qmeta = QMeta.free ∨
    ∃ a, o (books k).qmeta.connid = some a ∧ R (books k) a
  owner : ∀ c a, o c = some a → ∃ k, (books k).qmeta.connid = c
  unique : ∀ j k, (books j).qmeta ≠ QMeta.free →
    (books j).qmeta.connid = (books k).qmeta.connid → j = k
  proper : o (BitVec.allOnes 16) = none

section Owns

variable {α : Type} {o : BitVec 16 → Option α} {R : Books → α → Prop} {books : Fin n → Books}

theorem owns_closed : Owns (fun _ => none) R (fun _ : Fin n => Books.closed) where
  queue _ := Or.inl rfl
  owner _ _ h := by cases h
  unique _ _ h := absurd rfl h
  proper := rfl

variable (hO : Owns o R books)
include hO

theorem owns_get {c : BitVec 16} {a : α} (ho : o c = some a) :
    ∃ k, (books k).qmeta.connid = c ∧ R (books k) a := by
  obtain ⟨k, hk⟩ := hO.owner c a ho
  refine ⟨k, hk, ?_⟩
  rcases hO.queue k with h | ⟨a', h1, h2⟩
  · rw [← hk, h, free_connid, hO.proper] at ho
    cases ho
  · rw [hk, ho] at h1
    cases h1
    exact h2

/-- No queue has the session of a request that is not under way. -/
theorem owns_unmatched {c : BitVec 16} (hc : c ≠ BitVec.allOnes 16) (ho : o c = none) (k : Fin n) :
    (books k).qmeta.connid ≠ c := by
  intro e
  rcases hO.queue k with h | ⟨a, h1, -⟩
  · rw [h] at e
    exact hc e.symm
  · rw [e, ho] at h1
    cases h1

theorem owns_unique {c : BitVec 16} (hc : c ≠ BitVec.allOnes 16) {j k : Fin n}
    (hj : (books j).qmeta.connid = c) (hk : (books k).qmeta.connid = c) : j = k :=
  hO.unique j k (fun e => hc (by rw [← hj, e]; rfl)) (hj.trans hk.symm)

/-- **One session and its queue move on together**, the others stay as they are. -/
theorem owns_update {k : Fin n} {c : BitVec 16} {v : Option α} {bk : Books}
    (hc : c ≠ BitVec.allOnes 16)
    (hk : (books k).qmeta = QMeta.free ∨ (books k).qmeta.connid = c)
    (hother : ∀ j, (books j).qmeta.connid = c → j = k)
    (hnone : v = none → bk.qmeta = QMeta.free)
    (hsome : ∀ a, v = some a → bk.qmeta.connid = c ∧ R bk a) :
    Owns (Function.update o c v) R (Function.update books k bk) := by
  have hself : Function.update books k bk k = bk := Function.update_self ..
  have hne : ∀ j, j ≠ k → Function.update books k bk j = books j := fun j hj =>
    Function.update_of_ne hj ..
  refine ⟨fun j => ?_, fun c' a ha => ?_, fun i j hi hij => ?_, ?_⟩
  · by_cases hj : j = k
    · subst hj
      rw [hself]
      cases hv : v with
      | none => exact Or.inl (hnone hv)
      | some a =>
          obtain ⟨e, hR⟩ := hsome a hv
          exact Or.inr ⟨a, by rw [e, Function.update_self], hR⟩
    · rw [hne j hj]
      rcases hO.queue j with h | ⟨a, h1, h2⟩
      · exact Or.inl h
      · refine Or.inr ⟨a, ?_, h2⟩
        rw [Function.update_of_ne (fun e => hj (hother j e))]
        exact h1
  · by_cases hcc : c' = c
    · subst hcc
      rw [Function.update_self] at ha
      exact ⟨k, by rw [hself]; exact (hsome a ha).1⟩
    · rw [Function.update_of_ne hcc] at ha
      obtain ⟨j, e, -⟩ := owns_get hO ha
      have hj : j ≠ k := by
        rintro rfl
        rcases hk with h | h
        · rw [← e, h, free_connid, hO.proper] at ha
          cases ha
        · exact hcc (e.symm.trans h)
      exact ⟨j, by rw [hne j hj]; exact e⟩
  · -- queue k, if not free, has session c, which no other queue has
    by_cases hik : i = k <;> by_cases hjk : j = k
    · rw [hik, hjk]
    · subst hik
      rw [hself] at hi hij
      rw [hne j hjk] at hij
      cases hv : v with
      | none => exact absurd (hnone hv) hi
      | some a => exact (hother j (hij.symm.trans (hsome a hv).1)).symm
    · subst hjk
      rw [hne i hik] at hi hij
      rw [hself] at hij
      cases hv : v with
      | none =>
          rw [hnone hv] at hij
          rcases hO.queue i with h | ⟨a, h1, -⟩
          · exact absurd h hi
          · rw [hij, free_connid, hO.proper] at h1
            cases h1
      | some a => exact hother i (hij.trans (hsome a hv).1)
    · rw [hne i hik] at hi hij
      rw [hne j hjk] at hij
      exact hO.unique i j hi hij
  · rw [Function.update_of_ne hc.symm]
    exact hO.proper

end Owns

/-! ## 3. Where a beat goes -/

variable [FifoKind]

section Route

variable {α : Type} {o : BitVec 16 → Option α} {R : Books → α → Prop} {s : Sched n τ} {b : RxBeat τ}
  (hO : Owns o R s.inp.books) (hm : s.inp.metaSingle = QMeta.free)
  (hp : b.connid ≠ BitVec.allOnes 16)
include hO hm hp

/-- A continuing beat goes to its request's queue. -/
theorem route_owned
    (hroom : ∀ k, (s.inp.queue k).qmeta.connid = b.connid → (s.fifo k).tready = true) {a : α}
    (ho : o b.connid = some a) :
    ∃ k, s.route b = .matchQueue k ∧ (s.inp.queue k).qmeta.connid = b.connid ∧
      R (s.inp.books k) a := by
  obtain ⟨k, hk, hR⟩ := owns_get hO ho
  have hk' : (s.inp.queue k).qmeta.connid = b.connid := hk
  have hmk : s.matchesQueue b k = true := by
    simp [Sched.matchesQueue, hk', hroom k hk']
  rcases route_cases s b with ⟨-, h, -⟩ | ⟨-, ⟨j, hj, hmj⟩ | ⟨hno, -⟩⟩
  · rw [hm] at h
    exact absurd h hp
  · have hcj : b.connid = (s.inp.queue j).qmeta.connid := by
      simp only [Sched.matchesQueue, Bool.and_eq_true, decide_eq_true_eq] at hmj
      exact hmj.1
    have hjk : j = k := owns_unique hO hp hcj.symm hk
    exact ⟨k, by rw [hj, hjk], hk', hR⟩
  · rw [hno k] at hmk
    cases hmk

/-- The first beat of a request is complete in itself, or opens a free queue, or is lost. -/
theorem route_unowned (ho : o b.connid = none) :
    (s.route b = .single ∧ s.fitsSingle b = true) ∨
    (s.fitsSingle b = false ∧
      ((∃ k, s.route b = .alloc k ∧ (s.inp.queue k).qmeta = QMeta.free) ∨
      (s.route b = .reject ∧ ∀ k, s.canAlloc b k = false))) := by
  rcases route_cases s b with ⟨-, h, -⟩ | ⟨-, ⟨k, -, hmk⟩ | ⟨-, hf | ⟨hf, ⟨k, hk, hc⟩ | hr⟩⟩⟩
  · rw [hm] at h
    exact absurd h hp
  · have hne := owns_unmatched hO hp ho k
    simp only [Sched.matchesQueue, Bool.and_eq_true, decide_eq_true_eq] at hmk
    exact absurd hmk.1.symm hne
  · exact Or.inl hf
  · refine Or.inr ⟨hf, Or.inl ⟨k, hk, ?_⟩⟩
    simp only [Sched.canAlloc, Bool.and_eq_true, decide_eq_true_eq] at hc
    exact hc.2
  · exact Or.inr ⟨hf, Or.inr hr⟩

end Route

theorem fitsSingle_size {s : Sched n τ} {b : RxBeat τ} (h : s.fitsSingle b = true) :
    b.packetSize = b.length.setWidth 32 ∧ b.tlast = true := by
  simp only [Sched.fitsSingle, Bool.and_eq_true, decide_eq_true_eq] at h
  exact ⟨h.1.1.2, h.1.2⟩

end Frac.Reassembly
