/-
  File:      Frac/Lib/Largest.lean
  Subject:   The largest elements of a multiset, counted with multiplicity, and a row of cells that
             holds them in order; the record of a list read element by element. Nothing here names a
             circuit.

  * `largest m j` -- the `j`-th largest element, from 0 on;
  * `Ranks t m` -- what the cells say about `m`: cell `j` is at least `x` exactly when more than `j`
    elements of `m` are; `Ranks.largest` -- **the cells are the largest elements**;
  * `Ranks.bot`, `Ranks.cons` -- the empty row, and one element more;
  * `largest_add_bot` -- bottoms are the last to come;
  * `List.Records` -- the largest element so far and its key, `Records.concat` -- **one element more**.
-/
import Mathlib.Data.List.MinMax
import Mathlib.Data.Multiset.Sort
import Mathlib.Order.BoundedOrder.Basic

namespace Multiset

variable {α : Type*} [LinearOrder α]

/-- The `j`-th largest element, with multiplicity. -/
def largest (m : Multiset α) (j : Nat) : Option α := (m.sort (· ≥ ·))[j]?

/-- In a descending list, an element is at least `x` exactly when more than its index are. -/
theorem le_getElem_iff {l : List α} (h : l.Pairwise (· ≥ ·)) {j : Nat} {y : α} (hy : l[j]? = some y)
    (x : α) : x ≤ y ↔ j < l.countP (x ≤ ·) := by
  induction l generalizing j with
  | nil => cases hy
  | cons a l ih =>
      obtain ⟨hhead, htail⟩ := List.pairwise_cons.mp h
      rw [List.countP_cons]
      by_cases hx : x ≤ a
      · rw [if_pos (decide_eq_true hx)]
        cases j with
        | zero =>
            obtain rfl : a = y := Option.some.inj hy
            exact ⟨fun _ => Nat.succ_pos _, fun _ => hx⟩
        | succ j =>
            rw [ih htail hy]
            exact Nat.succ_lt_succ_iff.symm
      · -- nothing behind an element below `x` reaches `x`
        have hlow : ∀ b ∈ l, ¬ x ≤ b := fun b hb hxb => hx (hxb.trans (hhead b hb))
        have hzero : l.countP (x ≤ ·) = 0 :=
          List.countP_eq_zero.mpr fun b hb => by simpa using hlow b hb
        rw [hzero, if_neg (by simpa using hx)]
        refine ⟨fun hxy => absurd hxy ?_, fun hlt => absurd hlt (Nat.not_lt_zero j)⟩
        cases j with
        | zero =>
            obtain rfl : a = y := Option.some.inj hy
            exact hx
        | succ j => exact hlow y (List.mem_of_getElem? hy)

/-- **Cells that rank a multiset.** -/
def Ranks {k : Nat} (t : Fin k → α) (m : Multiset α) : Prop :=
  ∀ (j : Fin k) (x : α), x ≤ t j ↔ j.val < m.countP (x ≤ ·)

section Ranks

variable {k : Nat} {t t' : Fin k → α} {m : Multiset α}

/-- The cells descend. -/
theorem Ranks.antitone (h : Ranks t m) {i j : Fin k} (hij : i ≤ j) : t j ≤ t i :=
  (h i (t j)).mpr (Nat.lt_of_le_of_lt hij ((h j (t j)).mp le_rfl))

/-- **The cells are the largest elements.** -/
theorem Ranks.largest (h : Ranks t m) (j : Fin k) : m.largest j = some (t j) := by
  have hcount : ∀ x, (m.sort (· ≥ ·)).countP (x ≤ ·) = m.countP (x ≤ ·) := fun x => by
    rw [← coe_countP, sort_eq]
  have hlt : j.val < (m.sort (· ≥ ·)).length := by
    refine Nat.lt_of_lt_of_le ((h j (t j)).mp le_rfl) ?_
    rw [← hcount]
    exact List.countP_le_length
  obtain ⟨y, hy⟩ : ∃ y, (m.sort (· ≥ ·))[j.val]? = some y := ⟨_, List.getElem?_eq_getElem hlt⟩
  have heq : y = t j := eq_of_forall_le_iff fun x => by
    rw [le_getElem_iff (pairwise_sort m (· ≥ ·)) hy, hcount, h j x]
  rw [Multiset.largest, hy, heq]

/-- A row of bottoms. -/
theorem Ranks.bot [OrderBot α] (k : Nat) : Ranks (fun _ : Fin k => (⊥ : α)) (replicate k ⊥) := by
  intro j x
  rw [← coe_replicate, coe_countP, List.countP_replicate]
  by_cases hx : x ≤ ⊥
  · rw [if_pos (decide_eq_true hx)]
    exact ⟨fun _ => j.isLt, fun _ => hx⟩
  · rw [if_neg (by simpa using hx)]
    exact ⟨fun h => absurd h hx, fun h => absurd h (Nat.not_lt_zero _)⟩

/-- **One element more**: every cell takes it, or its neighbour, if that is larger than itself. -/
theorem Ranks.cons (h : Ranks t m) {v : α}
    (hstep : ∀ j x, x ≤ t' j ↔ x ≤ t j ∨ x ≤ v ∧ ∀ i : Fin k, i.val + 1 = j.val → x ≤ t i) :
    Ranks t' (v ::ₘ m) := by
  intro j x
  rw [hstep, h j x, countP_cons]
  by_cases hx : x ≤ v
  · rw [if_pos hx]
    constructor
    · rintro (hj | ⟨-, hi⟩)
      · omega
      · obtain ⟨j, hj⟩ := j
        cases j with
        | zero => exact Nat.succ_pos _
        | succ i => exact Nat.succ_lt_succ ((h ⟨i, by omega⟩ x).mp (hi ⟨i, by omega⟩ rfl))
    · intro hj
      refine (Nat.lt_or_eq_of_le (Nat.le_of_lt_succ hj)).imp_right fun hj => ⟨hx, fun i hi => ?_⟩
      exact (h i x).mpr (by omega)
  · rw [if_neg hx, Nat.add_zero]
    exact or_iff_left fun hv => hx hv.1

end Ranks

/-- **Bottoms are the last to come.** -/
theorem largest_add_bot [OrderBot α] (m : Multiset α) (k j : Nat) :
    ((m + replicate k ⊥).largest j).getD ⊥ = (m.largest j).getD ⊥ := by
  have hsort : (m + replicate k ⊥).sort (· ≥ ·) = m.sort (· ≥ ·) ++ List.replicate k ⊥ := by
    have hdesc : (m.sort (· ≥ ·) ++ List.replicate k ⊥).Pairwise (· ≥ ·) := by
      refine List.pairwise_append.mpr ⟨pairwise_sort _ _, ?_, fun a _ b hb => ?_⟩
      · exact List.pairwise_replicate.mpr (Or.inr le_rfl)
      · rw [List.eq_of_mem_replicate hb]
        exact bot_le
    refine List.Perm.eq_of_pairwise' (pairwise_sort _ _) hdesc ?_
    rw [← coe_eq_coe, sort_eq, ← coe_add, sort_eq, coe_replicate]
  rw [largest, largest, hsort]
  by_cases hj : j < (m.sort (· ≥ ·)).length
  · rw [List.getElem?_append_left hj]
  · rw [List.getElem?_append_right (Nat.not_lt.mp hj), List.getElem?_eq_none (Nat.not_lt.mp hj),
      List.getElem?_replicate]
    split <;> rfl

end Multiset

namespace List

variable {α β κ : Type*} [Preorder β] [DecidableLT β] {f : α → β} {code : α → κ} {init k : κ} {l : List α}
  {v : α}

/-- **The record of a list**: `v` is its largest element and `k` the key of it; of the empty list only the
    key is known. -/
def Records (f : α → β) (code : α → κ) (init : κ) (l : List α) (k : κ) (v : α) : Prop :=
  (l.argmax f).elim (k = init) fun x => v = x ∧ k = code x

/-- An element more is compared with the record; against the empty list it wins. -/
theorem Records.concat (h : Records f code init l k v) {y : α} {wins : Prop} [Decidable wins]
    (hfirst : k = init → wins) (hmore : ∀ x, k = code x → (wins ↔ f x < f y)) :
    Records f code init (l ++ [y]) (if wins then code y else k) (if wins then y else v) := by
  unfold Records at h ⊢
  rw [argmax_concat]
  cases hl : l.argmax f with
  | none =>
      rw [hl] at h
      rw [if_pos (hfirst h), if_pos (hfirst h)]
      exact ⟨rfl, rfl⟩
  | some x =>
      rw [hl] at h
      obtain ⟨rfl, hk⟩ := h
      by_cases hw : wins
      · rw [if_pos hw, if_pos hw]
        show Option.elim (if f v < f y then some y else some v) _ _
        rw [if_pos ((hmore v hk).mp hw)]
        exact ⟨rfl, rfl⟩
      · rw [if_neg hw, if_neg hw]
        show Option.elim (if f v < f y then some y else some v) _ _
        rw [if_neg (mt (hmore v hk).mpr hw)]
        exact ⟨rfl, hk⟩

/-- The record of a list that is not empty. -/
theorem Records.eq (h : Records f code init l k v) (hl : l ≠ []) : l.argmax f = some v := by
  unfold Records at h
  cases hm : l.argmax f with
  | none => exact absurd (argmax_eq_none.mp hm) hl
  | some x =>
      rw [hm] at h
      rw [h.1]

end List
