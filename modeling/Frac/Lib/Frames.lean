/-
  File:      Frac/Lib/Frames.lean
  Subject:   Frames of many sources on one stream: each item carries its source, a mark ends a frame,
             and a frame that has begun is carried on by its own source only.

  * `Frames last l o` -- `l` is made of frames, the last of them still open for the source `o`;
  * `Frames.idle`, `Frames.carry` -- an edge that adds nothing, and one that adds an item;
  * `Frames.open_of_last` -- whether a frame is open, and whose;
  * `Frames.whole` -- **the frames one by one**: each from one source, ended by its mark alone;
  * `Splits.ofSource` -- the frames of one source; `Short` -- no frame has more than `n` items.
-/
import Mathlib

variable {κ β : Type*}

/-- `l` is made of whole frames and one open frame of the source `o`, if any. -/
inductive Frames (last : β → Bool) : List (κ × β) → Option κ → Prop where
  | nil : Frames last [] none
  | begin {l : List (κ × β)} (k : κ) (x : β) (h : Frames last l none) :
      Frames last (l ++ [(k, x)]) (if last x then none else some k)
  | goOn {l : List (κ × β)} (k : κ) (x : β) (h : Frames last l (some k)) :
      Frames last (l ++ [(k, x)]) (if last x then none else some k)

namespace Frames

variable {last : β → Bool} {l : List (κ × β)} {o : Option κ}

/-- **An item that is added**: of the open frame, or the first of a new one. -/
theorem carry (h : Frames last l o) {k : κ} (hk : ∀ j, o = some j → j = k) (x : β) :
    Frames last (l ++ [(k, x)]) (if last x then none else some k) := by
  cases o with
  | none => exact h.begin k x
  | some j =>
      obtain rfl := hk j rfl
      exact h.goOn j x

/-- **The last item says what is open.** -/
theorem open_of_last (h : Frames last l o) {k : κ} {x : β} (hl : l.getLast? = some (k, x)) :
    o = if last x then none else some k := by
  cases h with
  | nil => cases hl
  | begin j y _ =>
      rw [List.getLast?_concat] at hl
      cases hl
      rfl
  | goOn j y _ =>
      rw [List.getLast?_concat] at hl
      cases hl
      rfl

/-- One whole frame of a source: its last item alone has the mark. -/
structure Whole (last : β → Bool) (f : κ × List β) : Prop where
  nonempty : f.2 ≠ []
  marked : ∀ x ∈ f.2.getLast?, last x = true
  unmarked : ∀ x ∈ f.2.dropLast, last x = false

/-- The items of a frame, each with its source. -/
def items (f : κ × List β) : List (κ × β) := f.2.map (f.1, ·)

/-- `l` is the frames `fs`, then `rest` of the open one. -/
def Splits (l : List (κ × β)) (fs : List (κ × List β)) (rest : List β) : Option κ → Prop
  | none => rest = [] ∧ l = fs.flatMap items
  | some k => rest ≠ [] ∧ l = fs.flatMap items ++ rest.map (k, ·)

/-- **The frames one by one**: whole frames, then what has come of the open one. -/
theorem whole (h : Frames last l o) :
    ∃ (fs : List (κ × List β)) (rest : List β), (∀ f ∈ fs, Whole last f) ∧ (∀ x ∈ rest, last x = false) ∧
      Splits l fs rest o := by
  induction h with
  | nil => exact ⟨[], [], by simp, by simp, rfl, rfl⟩
  | begin k x h ih =>
      obtain ⟨fs, rest, hfs, -, rfl, hl⟩ := ih
      cases hx : last x with
      | true =>
          refine ⟨fs ++ [(k, [x])], [], ?_, by simp, rfl, ?_⟩
          · intro f hf
            rcases List.mem_append.mp hf with hf | hf
            · exact hfs f hf
            · rw [List.mem_singleton.mp hf]
              exact ⟨List.cons_ne_nil _ _, by simpa using hx, by simp⟩
          · rw [hl]
            simp [items]
      | false =>
          refine ⟨fs, [x], hfs, by simpa using hx, List.cons_ne_nil _ _, ?_⟩
          rw [hl]
          simp
  | goOn k x h ih =>
      obtain ⟨fs, rest, hfs, hrest, -, hl⟩ := ih
      cases hx : last x with
      | true =>
          refine ⟨fs ++ [(k, rest ++ [x])], [], ?_, by simp, rfl, ?_⟩
          · intro f hf
            rcases List.mem_append.mp hf with hf | hf
            · exact hfs f hf
            · rw [List.mem_singleton.mp hf]
              exact ⟨by simp, by simpa using hx, by simpa using hrest⟩
          · rw [hl]
            simp [items]
      | false =>
          refine ⟨fs, rest ++ [x], hfs, ?_, by simp, ?_⟩
          · intro y hy
            rcases List.mem_append.mp hy with hy | hy
            · exact hrest y hy
            · rw [List.mem_singleton.mp hy]
              exact hx
          · rw [hl]
            simp

/-! ## Sources -/

section Sources

variable [DecidableEq κ]

/-- What has come from one source. -/
def ofSource (k : κ) (l : List (κ × β)) : List β := (l.filter (·.1 = k)).map (·.2)

@[simp] theorem ofSource_nil (k : κ) : ofSource k ([] : List (κ × β)) = [] := rfl

@[simp] theorem ofSource_append (k : κ) (l l' : List (κ × β)) :
    ofSource k (l ++ l') = ofSource k l ++ ofSource k l' := by
  simp [ofSource]

theorem ofSource_map (j k : κ) (xs : List β) : ofSource k (xs.map (j, ·)) = if j = k then xs else [] := by
  induction xs with
  | nil => simp
  | cons x xs ih =>
      rw [List.map_cons, ← List.singleton_append, ofSource_append, ih]
      by_cases hj : j = k <;> simp [ofSource, hj]

/-- What has come of frames of many sources, for one of them. -/
theorem ofSource_items (k : κ) (fs : List (κ × List β)) :
    ofSource k (fs.flatMap items) = (fs.filter (·.1 = k)).flatMap (·.2) := by
  induction fs with
  | nil => rfl
  | cons f fs ih =>
      rw [List.flatMap_cons, ofSource_append, ih, items, ofSource_map]
      by_cases hf : f.1 = k <;> simp [hf]

/-- The open frame of a source, if `o` says that it is its own. -/
def openOf (o : Option κ) (rest : List β) (k : κ) : List β := if o = some k then rest else []

theorem Splits.ofSource {fs : List (κ × List β)} {rest : List β} (h : Splits l fs rest o) (k : κ) :
    ofSource k l = (fs.filter (·.1 = k)).flatMap (·.2) ++ openOf o rest k := by
  cases o with
  | none =>
      rw [h.2, ofSource_items]
      exact (List.append_nil _).symm
  | some j =>
      rw [h.2, ofSource_append, ofSource_items, ofSource_map, openOf]
      simp

end Sources

/-- Of any `n` items in a row one has the mark. -/
def Short (last : β → Bool) (n : Nat) (l : List β) : Prop :=
  ∀ s, s <:+: l → s.length = n → ∃ x ∈ s, last x = true

theorem short_of_length {n : Nat} {l : List β} (h : l.length < n) : Short last n l := by
  intro s hs hlen
  have hle := hs.length_le
  omega

/-- Frames of one item. -/
theorem short_of_marked {n : Nat} {l : List β} (hn : 0 < n) (h : ∀ x ∈ l, last x = true) : Short last n l := by
  intro s hs hlen
  have hne : s ≠ [] := List.ne_nil_of_length_pos (by omega)
  obtain ⟨x, xs, rfl⟩ := List.exists_cons_of_ne_nil hne
  exact ⟨x, List.mem_cons_self .., h x (hs.subset (List.mem_cons_self ..))⟩

theorem Short.unmarked {n : Nat} {l s : List β} (h : Short last n l) (hin : s <:+: l)
    (hs : ∀ x ∈ s, last x = false) : s.length < n := by
  by_contra hn
  obtain ⟨x, hx, hmark⟩ := h (s.take n) ((List.take_prefix n s).isInfix.trans hin)
    (List.length_take_of_le (Nat.le_of_not_lt hn))
  rw [hs x (List.mem_of_mem_take hx)] at hmark
  cases hmark

/-- A frame within has no more than `n` items. -/
theorem Whole.length_le {n : Nat} {l : List β} {f : κ × List β} (hf : Whole last f) (h : Short last n l)
    (hin : f.2 <:+: l) : f.2.length ≤ n := by
  have hbody := h.unmarked ((List.dropLast_prefix f.2).isInfix.trans hin) hf.unmarked
  rw [List.length_dropLast] at hbody
  omega

end Frames
