/-
  File:      Frac/Lib/Join.lean
  Subject:   Cores that take operands and show results in their own time. The n-th result belongs to the
             n-th operand; a core of two channels takes a word on either as soon as that one is ready,
             without a look at the other.

  * `Core` -- one operand channel; `Core.left` -- **the operand of the result that is taken**;
  * `Core.left_take`, `Core.left_drop` -- it is the next of the operands;
  * `Join` -- two operand channels; `Join.Fed` -- **the words came in pairs**, `Join.fed_edge` -- which
    they do as long as a pair goes in as one; `Join.Orderly` -- the same of either channel on its own.
-/
import Mathlib.Data.List.Basic

/-! ## 1. One channel -/

/-- The operands a core has taken, first one first, and how many results were taken from it. -/
structure Core (α : Type*) where
  words : List α
  taken : Nat

namespace Core

variable {α β : Type*}

def empty : Core α := ⟨[], 0⟩

/-- The operand of the result that is shown, if there is one and the core shows it. -/
def oldest (c : Core α) (shown : Bool) : Option α := if shown then c.words[c.taken]? else none

/-- The operand of the result that is taken. -/
def left (c : Core α) (shown ready : Bool) : Option α := if ready then c.oldest shown else none

/-- One edge: `x` goes in, and the result is taken if `ready`. -/
def edge (c : Core α) (x : Option α) (shown ready : Bool) : Core α where
  words := c.words ++ x.toList
  taken := c.taken + (c.left shown ready).toList.length

/-- **The core has taken the operands `L`.** -/
structure Fed (c : Core α) (L : List α) : Prop where
  words : c.words = L
  taken : c.taken ≤ L.length

variable {c : Core α} {L : List α}

theorem fed_empty : (empty : Core α).Fed [] := ⟨rfl, Nat.le_refl 0⟩

theorem left_none {shown ready : Bool} (h : c.words.length ≤ c.taken) : c.left shown ready = none := by
  unfold left oldest
  rw [List.getElem?_eq_none h, ite_self, ite_self]

theorem oldest_none {shown : Bool} (h : c.words.length ≤ c.taken) : c.oldest shown = none :=
  show c.left shown true = none from left_none h

theorem oldest_some {shown : Bool} {x : α} (h : c.oldest shown = some x) : c.words[c.taken]? = some x := by
  unfold oldest at h
  cases shown with
  | false => cases h
  | true => exact h

/-- What is taken is the next operand. -/
theorem left_cases (c : Core α) (shown ready : Bool) :
    c.left shown ready = none ∨ c.left shown ready = c.words[c.taken]? := by
  unfold left oldest
  cases ready with
  | false => exact Or.inl rfl
  | true =>
      cases shown with
      | false => exact Or.inl rfl
      | true => exact Or.inr rfl

/-- **The operands whose results are taken** grow by the one taken. -/
theorem left_take (c : Core α) (x : Option α) (shown ready : Bool) :
    c.words.take (c.edge x shown ready).taken = c.words.take c.taken ++ (c.left shown ready).toList := by
  show c.words.take (c.taken + (c.left shown ready).toList.length) = _
  rcases left_cases c shown ready with h | h
  · rw [h]
    exact (List.append_nil _).symm
  · rw [h]
    cases hget : c.words[c.taken]? with
    | none => exact (List.append_nil _).symm
    | some y =>
        rw [show (some y).toList.length = 1 from rfl, List.take_add_one, hget]

/-- And those left are the rest. -/
theorem left_drop (c : Core α) (x : Option α) (shown ready : Bool) :
    c.words.drop c.taken = (c.left shown ready).toList ++ c.words.drop (c.edge x shown ready).taken := by
  show _ = _ ++ c.words.drop (c.taken + (c.left shown ready).toList.length)
  rcases left_cases c shown ready with h | h
  · rw [h]
    rfl
  · rw [h]
    cases hget : c.words[c.taken]? with
    | none => rfl
    | some y =>
        obtain ⟨hlt, hy⟩ := List.getElem?_eq_some_iff.mp hget
        rw [List.drop_eq_getElem_cons hlt, hy]
        rfl

section Words

variable {g : β → α} {W : List β} {u : Nat}

/-- What is shown of operands that are `g` of the words `W`, after those of `p`. -/
theorem Fed.oldest_after {p : List α} (h : c.Fed (p ++ W.map g)) (hu : c.taken = p.length + u) (shown : Bool) :
    c.oldest shown = ((⟨W, u⟩ : Core β).oldest shown).map g := by
  unfold Core.oldest
  rw [h.words, hu, List.getElem?_append_right (Nat.le_add_right _ _), Nat.add_sub_cancel_left, List.getElem?_map]
  cases shown <;> rfl

theorem Fed.left_after {p : List α} (h : c.Fed (p ++ W.map g)) (hu : c.taken = p.length + u) (shown ready : Bool) :
    c.left shown ready = ((⟨W, u⟩ : Core β).left shown ready).map g := by
  unfold Core.left
  rw [h.oldest_after hu]
  cases ready <;> rfl

/-- **The words go through the core** as through one that began with them. -/
theorem Fed.taken_after {p : List α} (h : c.Fed (p ++ W.map g)) (hu : c.taken = p.length + u) (x : Option α)
    (shown ready : Bool) :
    (c.edge x shown ready).taken = p.length + ((⟨W, u⟩ : Core β).edge none shown ready).taken := by
  show c.taken + (c.left shown ready).toList.length = p.length + (u + _)
  rw [h.left_after hu, Option.toList_map, List.length_map, hu, Nat.add_assoc]

theorem Fed.oldest (h : c.Fed (W.map g)) (shown : Bool) :
    c.oldest shown = ((⟨W, c.taken⟩ : Core β).oldest shown).map g :=
  oldest_after (p := []) h (Nat.zero_add _).symm shown

/-- **In order**: the next word is the one whose result is taken. -/
theorem Fed.leaves (h : c.Fed (W.map g)) (x : Option α) (shown ready : Bool) :
    W.take (c.edge x shown ready).taken =
        W.take c.taken ++ ((⟨W, c.taken⟩ : Core β).left shown ready).toList ∧
      W.drop c.taken =
        ((⟨W, c.taken⟩ : Core β).left shown ready).toList ++ W.drop (c.edge x shown ready).taken := by
  rw [taken_after (p := []) h (Nat.zero_add _).symm, List.length_nil, Nat.zero_add]
  exact ⟨left_take ⟨W, c.taken⟩ none shown ready, left_drop ⟨W, c.taken⟩ none shown ready⟩

end Words

theorem fed_edge (h : c.Fed L) (x : Option α) (shown ready : Bool) :
    (c.edge x shown ready).Fed (L ++ x.toList) := by
  refine ⟨by rw [edge, h.words], ?_⟩
  have hlen := congrArg List.length (left_drop c x shown ready)
  have htaken : (c.edge x shown ready).taken = c.taken + (c.left shown ready).toList.length := rfl
  rw [List.length_append, List.length_drop, List.length_drop, h.words] at hlen
  have hle := h.taken
  rw [List.length_append]
  omega

end Core

/-! ## 2. Two channels -/

/-- The words taken on either channel, and how many results were taken. -/
structure Join (α β : Type*) where
  a : List α
  b : List β
  taken : Nat

/-- What such a core does at an edge: the channels that are ready, and whether it shows a result. -/
structure JoinPins where
  aReady : Bool
  bReady : Bool
  shown : Bool
  deriving DecidableEq

namespace Join

variable {α β : Type*}

def empty : Join α β := ⟨[], [], 0⟩

/-- The pairs that make up the results. -/
def pairs (j : Join α β) : Core (α × β) := ⟨j.a.zip j.b, j.taken⟩

/-- The operands of the result that is shown. -/
def oldest (j : Join α β) (i : JoinPins) : Option (α × β) := j.pairs.oldest i.shown

/-- One edge: a word is offered on either channel, and the result is taken if `ready`. -/
def edge (j : Join α β) (i : JoinPins) (a : Option α) (b : Option β) (ready : Bool) : Join α β where
  a := j.a ++ (if i.aReady then a else none).toList
  b := j.b ++ (if i.bReady then b else none).toList
  taken := j.taken + (j.pairs.left i.shown ready).toList.length

/-- **The words came in the pairs `L`.** -/
structure Fed (j : Join α β) (L : List (α × β)) : Prop where
  a : j.a = L.map Prod.fst
  b : j.b = L.map Prod.snd
  taken : j.taken ≤ L.length

variable {j : Join α β} {L : List (α × β)}

theorem fed_empty : (empty : Join α β).Fed [] := ⟨rfl, rfl, Nat.le_refl 0⟩

theorem Fed.pairs (h : j.Fed L) : j.pairs.Fed L := by
  refine ⟨?_, h.taken⟩
  show j.a.zip j.b = L
  rw [h.a, h.b, ← List.unzip_fst, ← List.unzip_snd, List.zip_unzip]

/-- **The k-th words of both channels belong to the k-th pair of `L`**, however far each channel is. -/
def Orderly (j : Join α β) (L : List (α × β)) : Prop := j.a <+: L.map Prod.fst ∧ j.b <+: L.map Prod.snd

/-- Words that came in pairs do, whatever pairs come behind them. -/
theorem Fed.orderly {L' : List (α × β)} (h : j.Fed L) (hL : L <+: L') : j.Orderly L' := by
  refine ⟨?_, ?_⟩
  · rw [h.a]
    exact hL.map _
  · rw [h.b]
    exact hL.map _

/-- **A pair goes in as one**, or no word does. -/
theorem fed_edge (h : j.Fed L) {i : JoinPins} {a : Option α} {b : Option β} {x : Option (α × β)}
    (ha : (if i.aReady then a else none) = x.map Prod.fst)
    (hb : (if i.bReady then b else none) = x.map Prod.snd) (ready : Bool) :
    (j.edge i a b ready).Fed (L ++ x.toList) := by
  refine ⟨?_, ?_, (Core.fed_edge h.pairs x i.shown ready).taken⟩
  · show j.a ++ (if i.aReady then a else none).toList = _
    rw [ha, h.a, List.map_append, Option.toList_map]
  · show j.b ++ (if i.bReady then b else none).toList = _
    rw [hb, h.b, List.map_append, Option.toList_map]

end Join
