/-
  File:      Frac/Lib/Interleave.lean
  Subject:   One sequence as an interleaving of many: which of them each item came from is free, the
             order of each is kept, and nothing is lost or added.

  * `Interleaves` -- the interleavings of a family of sequences;
  * `Interleaves.step` -- **a reader that shows what it takes, from one source at a time, interleaves
    its sources**.
-/
import Mathlib.Logic.Function.Basic

variable {ι α : Type*}

/-- `out` interleaves the sequences `parts`: built up item by item, each at the end of one part. -/
inductive Interleaves [DecidableEq ι] : (ι → List α) → List α → Prop where
  | nil : Interleaves (fun _ => []) []
  | snoc {parts : ι → List α} {out : List α} (k : ι) (x : α) (h : Interleaves parts out) :
      Interleaves (Function.update parts k (parts k ++ [x])) (out ++ [x])

variable [DecidableEq ι]

/-- **One step of a reader**: what is shown is what is taken, from at most one source. -/
theorem Interleaves.step {parts : ι → List α} {out : List α} (h : Interleaves parts out)
    {taken : ι → Option α} {shown : Option α} (hshown : ∀ x, shown = some x → ∃ k, taken k = some x)
    (htaken : ∀ k x, taken k = some x → shown = some x)
    (hone : ∀ j k, (taken j).isSome = true → (taken k).isSome = true → j = k) :
    Interleaves (fun k => parts k ++ (taken k).toList) (out ++ shown.toList) := by
  cases hs : shown with
  | none =>
      have hnone : ∀ k, taken k = none := fun k => by
        cases hk : taken k with
        | none => rfl
        | some x => rw [htaken k x hk] at hs; cases hs
      simpa [hnone] using h
  | some x =>
      obtain ⟨k, hk⟩ := hshown x hs
      have hparts : (fun j => parts j ++ (taken j).toList) =
          Function.update parts k (parts k ++ [x]) := by
        funext j
        by_cases hj : j = k
        · rw [hj, Function.update_self, hk]
          rfl
        · rw [Function.update_of_ne hj]
          have hnone : taken j = none := Option.not_isSome_iff_eq_none.mp fun hne =>
            hj (hone j k hne (by rw [hk]; rfl))
          rw [hnone]
          exact List.append_nil _
      rw [hparts]
      exact h.snoc k x
