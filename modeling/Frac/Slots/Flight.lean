/-
  File:      Frac/Slots/Flight.lean
  Subject:   The words of a line between issue and packing, with their values: which words are in the
             cores, and what a line is once the results are packed.

  * `mapWords` -- a line with a function applied to each word; `Packed` -- as far as the results are
    packed (`packed_all` -- **all sixteen make up the line**);
  * `issuedWords` -- how many words of a line are issued (`values_issue` -- one more);
  * `stage_moves` -- **a core on the way**: what comes out belongs to the oldest word in it;
  * `next_result` -- what comes out at the end is taken where it is owed;
  * `StreamRequest.replies` -- a response to every data line, with the meta of the request;
    `StreamRequest.allValues` -- the words of all data lines.
-/
import Frac.Slots.Stream
import Frac.Slots.Words

namespace Frac.Slots

open Bits

/-! ## 1. Lines word by word -/

/-- A line with `g` applied to every word. -/
def mapWords (g : BitVec 32 → BitVec 32) (line : BitVec 512) : BitVec 512 :=
  ofBits 512 fun t => (g (line.extractLsb' (32 * (t / 32)) 32)).getLsbD (t % 32)

/-- The first `k` words are results. -/
def Packed (g : BitVec 32 → BitVec 32) (line : BitVec 512) (k : Nat) (acc : BitVec 512) : Prop :=
  ∀ t < 32 * k, acc.getLsbD t = (g (line.extractLsb' (32 * (t / 32)) 32)).getLsbD (t % 32)

section Packed

variable {g : BitVec 32 → BitVec 32} {line acc : BitVec 512}

theorem packed_zero : Packed g line 0 acc := fun t ht => absurd ht (by omega)

theorem packed_word {idx : BitVec 4} (h : Packed g line idx.toNat acc) :
    Packed g line (idx.toNat + 1) (setWord acc idx (g (word line idx))) := by
  intro t ht
  have hidx := idx.isLt
  rw [setWord, getLsbD_ofBits, decide_eq_true (by omega), Bool.true_and]
  by_cases heq : t / 32 = idx.toNat
  · rw [if_pos heq, heq]
    rfl
  · rw [if_neg heq]
    exact h t (by omega)

/-- **All words are packed.** -/
theorem packed_all (h : Packed g line 16 acc) : acc = mapWords g line := by
  apply BitVec.eq_of_getLsbD_eq
  intro t ht
  rw [mapWords, getLsbD_ofBits, decide_eq_true ht, Bool.true_and]
  exact h t (by omega)

/-- The words of such a line. -/
theorem word_mapWords (g : BitVec 32 → BitVec 32) (line : BitVec 512) (i : BitVec 4) :
    word (mapWords g line) i = g (word line i) := by
  have hi := i.isLt
  apply BitVec.eq_of_getLsbD_eq
  intro t ht
  rw [word, BitVec.getLsbD_extractLsb', decide_eq_true ht, Bool.true_and, mapWords, getLsbD_ofBits,
    decide_eq_true (by omega), Bool.true_and, show (32 * i.toNat + t) / 32 = i.toNat by omega,
    show (32 * i.toNat + t) % 32 = t by omega]
  rfl

end Packed

/-! ## 2. Words in flight -/

/-- The words of a line. -/
def values (line : BitVec 512) : List (BitVec 32) :=
  (List.range 16).map fun i => line.extractLsb' (32 * i) 32

theorem values_length (line : BitVec 512) : (values line).length = 16 := by
  rw [values, List.length_map, List.length_range]

theorem values_getElem? (line : BitVec 512) (i : BitVec 4) : (values line)[i.toNat]? = some (word line i) := by
  rw [values, List.getElem?_map, List.getElem?_range i.isLt]
  rfl

/-- The words of the line that are issued. -/
def issuedWords (issuing : Bool) (idx : BitVec 4) : Nat := if issuing then idx.toNat else 16

section Issue

variable {line : BitVec 512} {fire res issuing issuing' : Bool} {idx pack idx' pack' : BitVec 4}
  {owed owed' : BitVec 5}

theorem issuedWords_le (issuing : Bool) (idx : BitVec 4) : issuedWords issuing idx ≤ 16 := by
  have hidx := idx.isLt
  unfold issuedWords
  split <;> omega

/-- The words issued after an edge. -/
theorem issuedWords_step (h : FillStep fire res issuing idx pack owed issuing' idx' pack' owed')
    (hfire : fire = true → issuing = true) :
    issuedWords issuing' idx' = issuedWords issuing idx + fire.toNat := by
  have hidx := idx.isLt
  rw [h.issuing, h.idx]
  cases fire with
  | false => rfl
  | true =>
      rw [hfire rfl]
      by_cases h15 : idx = 15
      · rw [h15]
        rfl
      · have hlt : idx.toNat < 15 := by
          have hne : idx.toNat ≠ 15 := fun e => h15 (BitVec.eq_of_toNat_eq e)
          omega
        rw [decide_eq_false h15]
        show (idx + 1).toNat = idx.toNat + 1
        exact toNat_succ (by omega)

/-- The words issued after an edge are those before and the one issued at it. -/
theorem values_issue (hfire : fire = true → issuing = true) :
    (values line).take (issuedWords issuing idx) ++ (if fire then some (word line idx) else none).toList =
      (values line).take (issuedWords issuing idx + fire.toNat) := by
  cases fire with
  | false => exact List.append_nil _
  | true =>
      rw [hfire rfl, show issuedWords true idx = idx.toNat from rfl, Bool.toNat_true, List.take_add_one,
        values_getElem?]
      rfl

end Issue

/-- **A core on the way.** It holds `g` of the words `L`, oldest first; `x` goes in, and what comes out
    belongs to the oldest word. -/
theorem stage_moves {α β : Type} {g : α → β} {L : List α} {x : Option α} {items' : List β}
    {out : Option β} (h : out.toList ++ items' = L.map g ++ (x.map g).toList) :
    ∃ (y : Option α) (L' : List α), L ++ x.toList = y.toList ++ L' ∧ out = y.map g ∧
      items' = L'.map g := by
  have hx : (x.map g).toList = x.toList.map g := by cases x <;> rfl
  rw [hx, ← List.map_append] at h
  generalize L ++ x.toList = K at h ⊢
  cases out with
  | none => exact ⟨none, K, rfl, rfl, h⟩
  | some v =>
      cases K with
      | nil => cases h
      | cons k K =>
          obtain ⟨h1, h2⟩ := List.cons.inj h
          exact ⟨some k, K, rfl, congrArg some h1, h2⟩

/-- **What comes out at the end** is taken where it is owed: it is the result of the next word of `w`, and
    the words in flight after it are those behind. -/
theorem next_result {g : BitVec 32 → BitVec 32} {w ws : List (BitVec 32)} {n : Nat} {x y out : Option (BitVec 32)}
    {owed : BitVec 5} (hn : n + owed.toNat = w.length) (hws : w.drop n ++ x.toList = y.toList ++ ws)
    (hout : out = y.map g) (hidle : w.drop n = [] → out = none) :
    ((out.isSome && owed != 0) = true → ∀ v, w[n]? = some v → out.getD 0 = g v) ∧
      (w ++ x.toList).drop (n + (out.isSome && owed != 0).toNat) = ws := by
  rw [← List.drop_append_of_le_length (by omega)] at hws
  by_cases hzero : owed = 0
  · have hnone : w.drop n = [] := by
      refine List.drop_eq_nil_of_le (Nat.le_of_eq ?_)
      rw [← hn, hzero]
      rfl
    rw [hidle hnone] at hout ⊢
    obtain rfl : y = none := Option.map_eq_none_iff.mp hout.symm
    exact ⟨nofun, hws⟩
  · rw [bne_iff_ne.mpr hzero, Bool.and_true]
    cases y with
    | none => rw [hout]; exact ⟨nofun, hws⟩
    | some v =>
        have hlt : n < w.length := by
          have hne : owed.toNat ≠ 0 := fun e => hzero (BitVec.eq_of_toNat_eq e)
          omega
        rw [List.drop_eq_getElem_cons (by rw [List.length_append]; omega)] at hws
        obtain ⟨hv, hrest⟩ := List.cons.inj hws
        rw [hout]
        refine ⟨fun _ v' hv' => ?_, hrest⟩
        obtain rfl : v' = v := by
          rw [← hv, List.getElem_append_left hlt]
          exact (List.getElem?_eq_some_iff.mp hv').2.symm
        rfl

/-! ## 3. Beats of a request and of its response -/

theorem lineBeats_length (ls : List SlotLine) : (lineBeats ls).length = ls.length := by
  induction ls with
  | nil => rfl
  | cons l ls ih => rw [lineBeats, List.length_cons, List.length_cons, ih]

theorem lineBeats_getElem? (ls : List SlotLine) (j : Nat) :
    (lineBeats ls)[j]? = (ls[j]?).map fun l => l.beat (ls.drop (j + 1)).isEmpty := by
  induction ls generalizing j with
  | nil => rfl
  | cons l ls ih =>
      cases j with
      | zero => rfl
      | succ j => exact ih j

namespace StreamRequest

/-- `resp_bytes`: the bytes of the request, less its header line. -/
def respBytes (r : StreamRequest) : BitVec 16 := r.first.bytes - if r.first.isHeader then 64 else 0

/-- The responses to data lines: one beat for each, with the meta of the request's first line. -/
def replies (f : BitVec 512 → BitVec 512) (r : StreamRequest) (ls : List SlotLine) : List SlotBeat :=
  lineBeats (ls.map fun l => ⟨r.respBytes, r.first.session, f l.payload⟩)

/-- **The response to a request**: `f` of every data line, `tlast` on the last. -/
def reply (f : BitVec 512 → BitVec 512) (r : StreamRequest) : List SlotBeat := r.replies f r.data

theorem beats_length (r : StreamRequest) : r.beats.length = r.lines.length := lineBeats_length _

theorem beats_getElem? (r : StreamRequest) (j : Nat) :
    r.beats[j]? = (r.lines[j]?).map fun l => l.beat (r.lines.drop (j + 1)).isEmpty :=
  lineBeats_getElem? _ _

theorem reply_length (f : BitVec 512 → BitVec 512) (r : StreamRequest) :
    (r.reply f).length = r.data.length := by
  rw [reply, replies, lineBeats_length, List.length_map]

/-- **The beats of a response.** -/
theorem reply_getElem? (f : BitVec 512 → BitVec 512) (r : StreamRequest) {k : Nat} {l : SlotLine}
    (hk : r.data[k]? = some l) :
    (r.reply f)[k]? =
      some ⟨r.respBytes, r.first.session, decide (k + 1 = r.data.length), f l.payload⟩ := by
  have hlt : k < r.data.length := (List.getElem?_eq_some_iff.mp hk).1
  have hlast : (r.data.drop (k + 1)).isEmpty = decide (k + 1 = r.data.length) := by
    rw [Bool.eq_iff_iff, List.isEmpty_iff, List.drop_eq_nil_iff, decide_eq_true_eq]
    omega
  rw [reply, replies, lineBeats_getElem?, List.getElem?_map, hk, ← List.map_drop, List.isEmpty_map, hlast]
  rfl

/-- The responses left once `k` lines are answered. -/
def left (f : BitVec 512 → BitVec 512) (r : StreamRequest) (k : Nat) : List SlotBeat := r.replies f (r.data.drop k)

theorem replies_cons (f : BitVec 512 → BitVec 512) (r : StreamRequest) (l : SlotLine) (ls : List SlotLine) :
    r.replies f (l :: ls) = ⟨r.respBytes, r.first.session, ls.isEmpty, f l.payload⟩ :: r.replies f ls := by
  rw [replies, List.map_cons, lineBeats, List.isEmpty_map]
  rfl

theorem left_cons (f : BitVec 512 → BitVec 512) (r : StreamRequest) {k : Nat} {l : SlotLine}
    (hk : r.data[k]? = some l) : r.left f k =
      ⟨r.respBytes, r.first.session, decide (k + 1 = r.data.length), f l.payload⟩ :: r.left f (k + 1) := by
  obtain ⟨hlt, hval⟩ := List.getElem?_eq_some_iff.mp hk
  have hlast : (r.data.drop (k + 1)).isEmpty = decide (k + 1 = r.data.length) := by
    rw [Bool.eq_iff_iff, List.isEmpty_iff, List.drop_eq_nil_iff, decide_eq_true_eq]
    omega
  rw [left, List.drop_eq_getElem_cons hlt, hval, replies_cons, hlast]
  rfl

theorem left_nil (f : BitVec 512 → BitVec 512) (r : StreamRequest) {k : Nat} (hk : r.data.length ≤ k) :
    r.left f k = [] := by
  rw [left, List.drop_eq_nil_of_le hk]
  rfl

/-! ### The words of a request -/

/-- The words of the first `k` data lines. -/
def valuesTo (r : StreamRequest) (k : Nat) : List (BitVec 32) := (r.data.take k).flatMap (values ·.payload)

/-- The words of the request. -/
def allValues (r : StreamRequest) : List (BitVec 32) := r.data.flatMap (values ·.payload)

/-- The lines before the data. -/
def headers (r : StreamRequest) : Nat := if r.first.isHeader then 1 else 0

section Values

variable {r : StreamRequest} {k : Nat} {l : SlotLine}

theorem valuesTo_succ (hk : r.data[k]? = some l) : r.valuesTo (k + 1) = r.valuesTo k ++ values l.payload := by
  rw [valuesTo, List.take_add_one, hk, List.flatMap_append]
  exact congrArg _ (List.append_nil _)

theorem valuesTo_all : r.valuesTo r.data.length = r.allValues := by rw [valuesTo, List.take_length, allValues]

/-- The words of some lines, and some of the next line. -/
theorem valuesTo_prefix (hk : r.data[k]? = some l) (m : Nat) :
    r.valuesTo k ++ (values l.payload).take m <+: r.allValues := by
  have hlt := (List.getElem?_eq_some_iff.mp hk).1
  have hline : r.valuesTo k ++ (values l.payload).take m <+: r.valuesTo (k + 1) := by
    rw [valuesTo_succ hk]
    exact (List.prefix_append_right_inj _).mpr (List.take_prefix m _)
  refine hline.trans ?_
  rw [valuesTo, allValues]
  exact (List.take_prefix (k + 1) r.data).flatMap _

theorem valuesTo_line (hk : r.data[k]? = some l) : r.valuesTo (k + 1) <+: r.allValues := by
  have hline := valuesTo_prefix hk 16
  rwa [List.take_of_length_le (Nat.le_of_eq (values_length _)), ← valuesTo_succ hk] at hline

theorem mem_allValues {x : BitVec 32} : x ∈ r.allValues ↔ ∃ l ∈ r.data, ∃ i, word l.payload i = x := by
  rw [allValues, List.mem_flatMap]
  refine exists_congr fun l => and_congr_right fun _ => ?_
  rw [values, List.mem_map]
  refine ⟨fun ⟨i, hi, he⟩ => ⟨BitVec.ofNat 4 i, ?_⟩, fun ⟨i, he⟩ => ⟨i.toNat, List.mem_range.mpr i.isLt, he⟩⟩
  have hlt := List.mem_range.mp hi
  rw [← he, word, BitVec.toNat_ofNat, Nat.mod_eq_of_lt hlt]

theorem allValues_ne_nil (h : r.data ≠ []) : r.allValues ≠ [] := by
  obtain ⟨l, ls, hdata⟩ := List.exists_cons_of_ne_nil h
  exact List.ne_nil_of_mem (mem_allValues.mpr ⟨l, hdata ▸ List.mem_cons_self .., 0, rfl⟩)

theorem lines_length : r.lines.length = r.headers + r.data.length := by
  unfold headers data
  split
  · exact Nat.add_comm ..
  · exact (Nat.zero_add _).symm

/-- The data lines are behind the header. -/
theorem lines_getElem? : r.lines[r.headers + k]? = r.data[k]? := by
  unfold headers data
  split
  · rw [Nat.add_comm]
    rfl
  · rw [Nat.zero_add]

theorem valuesTo_length (hk : k ≤ r.data.length) : (r.valuesTo k).length = 16 * k := by
  induction k with
  | zero => rfl
  | succ k ih =>
      rw [valuesTo_succ (List.getElem?_eq_getElem hk), List.length_append, ih (by omega), values_length]
      omega

/-- The beats of the data lines. -/
theorem beats_data {b : SlotBeat} (hb : r.beats[r.headers + k]? = some b) :
    ∃ l, r.data[k]? = some l ∧ b = l.beat (decide (k + 1 = r.data.length)) := by
  rw [beats_getElem?, lines_getElem?] at hb
  obtain ⟨l, hl, rfl⟩ := Option.map_eq_some_iff.mp hb
  have hlt : k < r.data.length := (List.getElem?_eq_some_iff.mp hl).1
  refine ⟨l, hl, congrArg l.beat ?_⟩
  rw [Bool.eq_iff_iff, List.isEmpty_iff, List.drop_eq_nil_iff, decide_eq_true_eq, lines_length]
  omega

end Values

end StreamRequest

end Frac.Slots
