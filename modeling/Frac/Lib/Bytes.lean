/-
  File:      Frac/Lib/Bytes.lean
  Subject:   Strings of bytes and the words a bus reads them as, lowest byte first.

  * `leBytes n v` -- the number `v` put into `n` bytes; `leNat_leBytes` -- what is read back;
  * `ofBytes k bs` -- the first `k` bytes as one word, zeros where the string ends (`byteAt_ofBytes`);
  * `lines k bs` -- the whole string as words of `k` bytes; `lines_whole` -- **the words of a string
    that starts with whole words**;
  * `chunks k bs` -- the string cut into pieces of `k` bytes (`chunks_cons`, `flatten_chunks`);
  * `lines_numbers`, `numbers_lines` -- **numbers put into a string, and read back**.
-/
import Frac.Lib.ByteMem
import Mathlib.Data.List.GetD

namespace Bits

/-! ## 1. Numbers -/

/-- The `n` lowest bytes of a number, lowest first. -/
def leBytes : Nat → Nat → List (BitVec 8)
  | 0, _ => []
  | n + 1, v => BitVec.ofNat 8 v :: leBytes n (v / 256)

@[simp] theorem length_leBytes (n v : Nat) : (leBytes n v).length = n := by
  induction n generalizing v with
  | zero => rfl
  | succ n ih => exact congrArg (· + 1) (ih (v / 256))

/-- A word that holds the bytes of a number holds the number. -/
theorem leNat_leBytes {w n : Nat} {x : BitVec w} {k v : Nat}
    (h : ∀ j < n, byteAt x (k + j) = (leBytes n v).getD j 0) : leNat x k n = v % 256 ^ n := by
  induction n generalizing k v with
  | zero => rw [Nat.pow_zero, Nat.mod_one]; rfl
  | succ n ih =>
      have hlow : byteAt x k = BitVec.ofNat 8 v := h 0 (Nat.succ_pos n)
      have hhigh : leNat x (k + 1) n = v / 256 % 256 ^ n := by
        refine ih fun j hj => ?_
        rw [Nat.add_assoc, Nat.add_comm 1 j]
        exact h (j + 1) (Nat.succ_lt_succ hj)
      rw [leNat, hlow, hhigh, BitVec.toNat_ofNat, Nat.pow_succ' (m := 256), Nat.mod_mul (a := 256)]

/-! ## 2. Words -/

/-- The first `k` bytes of a string as one word. -/
def ofBytes (k : Nat) (bs : List (BitVec 8)) : BitVec (8 * k) :=
  ofBits (8 * k) fun t => (bs.getD (t / 8) 0).getLsbD (t % 8)

theorem byteAt_ofBytes {k j : Nat} (bs : List (BitVec 8)) (hj : j < k) :
    byteAt (ofBytes k bs) j = bs.getD j 0 := by
  apply BitVec.eq_of_getLsbD_eq
  intro t ht
  simp only [byteAt, ofBytes, BitVec.getLsbD_extractLsb', ht, decide_true, Bool.true_and,
    getLsbD_ofBits]
  rw [decide_eq_true (by omega), Bool.true_and, show (8 * j + t) / 8 = j by omega,
    show (8 * j + t) % 8 = t by omega]

/-- A word is its bytes. -/
theorem eq_of_byteAt {k : Nat} {x y : BitVec (8 * k)} (h : ∀ j < k, byteAt x j = byteAt y j) :
    x = y := by
  apply BitVec.eq_of_getLsbD_eq
  intro t ht
  have hbit := congrArg (fun b => b.getLsbD (t % 8)) (h (t / 8) (by omega))
  simp only [byteAt, BitVec.getLsbD_extractLsb'] at hbit
  rw [decide_eq_true (Nat.mod_lt t (by decide)), Bool.true_and, Bool.true_and,
    Nat.div_add_mod] at hbit
  exact hbit

/-- The bytes of a word of `k` bytes. -/
def toBytes (k : Nat) (x : BitVec (8 * k)) : List (BitVec 8) := (List.range k).map (byteAt x)

@[simp] theorem length_toBytes (k : Nat) (x : BitVec (8 * k)) : (toBytes k x).length = k := by
  rw [toBytes, List.length_map, List.length_range]

theorem getD_toBytes {k j : Nat} (x : BitVec (8 * k)) (hj : j < k) :
    (toBytes k x).getD j 0 = byteAt x j := by
  rw [toBytes, List.getD_eq_getElem _ _ (by simpa using hj)]
  simp

theorem ofBytes_toBytes {k : Nat} (x : BitVec (8 * k)) : ofBytes k (toBytes k x) = x :=
  eq_of_byteAt fun j hj => by rw [byteAt_ofBytes _ hj, getD_toBytes x hj]

theorem ofBytes_append {k : Nat} {bs : List (BitVec 8)} (h : bs.length = k) (cs : List (BitVec 8)) :
    ofBytes k (bs ++ cs) = ofBytes k bs := by
  refine eq_of_byteAt fun j hj => ?_
  rw [byteAt_ofBytes _ hj, byteAt_ofBytes _ hj, List.getD_append _ _ _ _ (by omega)]

/-! ## 3. Strings -/

/-- A string as words of `k` bytes, the last one filled up with zeros. -/
def lines (k : Nat) (bs : List (BitVec 8)) : List (BitVec (8 * k)) :=
  (List.range ((bs.length + (k - 1)) / k)).map fun i => ofBytes k (bs.drop (k * i))

theorem length_lines (k : Nat) (bs : List (BitVec 8)) :
    (lines k bs).length = (bs.length + (k - 1)) / k := by
  rw [lines, List.length_map, List.length_range]

theorem lines_nil {k : Nat} (hk : 0 < k) : lines k [] = [] := by
  rw [lines, List.length_nil, Nat.zero_add, Nat.div_eq_of_lt (by omega)]
  rfl

/-- The words of a string that starts with a whole word. -/
theorem lines_append {k : Nat} (hk : 0 < k) {bs : List (BitVec 8)} (h : bs.length = k)
    (cs : List (BitVec 8)) : lines k (bs ++ cs) = ofBytes k bs :: lines k cs := by
  have hlen : ((bs ++ cs).length + (k - 1)) / k = (cs.length + (k - 1)) / k + 1 := by
    rw [List.length_append, h, Nat.add_assoc, Nat.add_div_left _ hk]
  rw [lines, hlen, List.range_succ_eq_map, List.map_cons, List.map_map, Nat.mul_zero, List.drop_zero,
    ofBytes_append h]
  refine congrArg (ofBytes k bs :: ·) (List.map_congr_left fun i _ => ?_)
  show ofBytes k ((bs ++ cs).drop (k * (i + 1))) = _
  rw [Nat.mul_succ, Nat.add_comm, ← h, ← List.drop_drop, List.drop_left]

/-- One word. -/
theorem lines_one {k : Nat} (hk : 0 < k) {bs : List (BitVec 8)} (h : bs.length = k) :
    lines k bs = [ofBytes k bs] := by
  have hone := lines_append hk h []
  rw [List.append_nil, lines_nil hk] at hone
  exact hone

/-- **The words of a string that starts with whole words.** -/
theorem lines_whole {k : Nat} (hk : 0 < k) {m : Nat} {bs : List (BitVec 8)} (h : bs.length = k * m)
    (cs : List (BitVec 8)) : lines k (bs ++ cs) = lines k bs ++ lines k cs := by
  induction m generalizing bs with
  | zero =>
      rw [List.length_eq_zero_iff.mp (h.trans (Nat.mul_zero k)), lines_nil hk]
      rfl
  | succ m ih =>
      rw [Nat.mul_succ] at h
      have hfirst : (bs.take k).length = k := by rw [List.length_take]; omega
      have hrest : (bs.drop k).length = k * m := by rw [List.length_drop]; omega
      rw [← List.take_append_drop k bs, List.append_assoc, lines_append hk hfirst,
        lines_append hk hfirst, ih hrest]
      rfl

/-- Strings of whole words, one after the other. -/
theorem lines_flatten {k : Nat} (hk : 0 < k) {bss : List (List (BitVec 8))}
    (h : ∀ bs ∈ bss, bs.length % k = 0) : lines k bss.flatten = (bss.map (lines k)).flatten := by
  induction bss with
  | nil => exact lines_nil hk
  | cons bs bss ih =>
      have hwhole : bs.length = k * (bs.length / k) :=
        (Nat.mul_div_cancel' (Nat.dvd_of_mod_eq_zero (h bs List.mem_cons_self))).symm
      rw [List.flatten_cons, lines_whole hk hwhole, ih fun bs' hbs => h bs' (List.mem_cons_of_mem _ hbs)]
      rfl

/-- Byte `j` of word `i` is byte `k * i + j` of the string. -/
theorem byteAt_lines {k i j : Nat} (bs : List (BitVec 8)) (hj : j < k)
    (hi : i < (bs.length + (k - 1)) / k) :
    byteAt ((lines k bs).getD i 0) j = bs.getD (k * i + j) 0 := by
  have hlen : i < (lines k bs).length := by rw [length_lines]; exact hi
  rw [List.getD_eq_getElem _ _ hlen]
  simp only [lines, List.getElem_map, List.getElem_range]
  rw [byteAt_ofBytes _ hj, List.getD_eq_getElem?_getD, List.getElem?_drop, List.getD_eq_getElem?_getD]

/-! ## 4. Pieces -/

/-- A string in pieces of `k` bytes, the last one with what is left. -/
def chunks (k : Nat) (bs : List (BitVec 8)) : List (List (BitVec 8)) :=
  (List.range ((bs.length + (k - 1)) / k)).map fun i => (bs.drop (k * i)).take k

theorem chunks_nil {k : Nat} (hk : 0 < k) : chunks k [] = [] := by
  rw [chunks, List.length_nil, Nat.zero_add, Nat.div_eq_of_lt (by omega)]
  rfl

/-- The first piece, and the pieces of the rest. -/
theorem chunks_cons {k : Nat} (hk : 0 < k) {bs : List (BitVec 8)} (hne : bs ≠ []) :
    chunks k bs = bs.take k :: chunks k (bs.drop k) := by
  have hpos := List.length_pos_iff.mpr hne
  have hcount : (bs.length + (k - 1)) / k = ((bs.drop k).length + (k - 1)) / k + 1 := by
    rw [List.length_drop, ← Nat.add_div_right _ hk]
    rcases Nat.le_total k bs.length with hle | hle
    · congr 1
      omega
    · -- one piece, and nothing behind it
      have hone : ∀ a, k ≤ a → a < 2 * k → a / k = 1 := fun a h1 h2 =>
        Nat.div_eq_of_lt_le (by omega) (by omega)
      rw [Nat.sub_eq_zero_of_le hle, hone _ (by omega) (by omega), hone _ (by omega) (by omega)]
  rw [chunks, hcount, List.range_succ_eq_map, List.map_cons, List.map_map, Nat.mul_zero,
    List.drop_zero]
  refine congrArg (bs.take k :: ·) (List.map_congr_left fun i _ => ?_)
  show (bs.drop (k * (i + 1))).take k = _
  rw [Nat.mul_succ, Nat.add_comm, ← List.drop_drop]

theorem flatten_pieces (k m : Nat) (bs : List (BitVec 8)) :
    ((List.range m).map fun i => (bs.drop (k * i)).take k).flatten = bs.take (k * m) := by
  induction m with
  | zero => rw [Nat.mul_zero]; rfl
  | succ m ih =>
      rw [List.range_succ, List.map_append, List.flatten_append, ih, Nat.mul_succ, List.take_add]
      simp

theorem flatten_chunks {k : Nat} (hk : 0 < k) (bs : List (BitVec 8)) : (chunks k bs).flatten = bs := by
  rw [chunks, flatten_pieces, List.take_of_length_le]
  have hdiv := Nat.div_add_mod (bs.length + (k - 1)) k
  have hmod := Nat.mod_lt (bs.length + (k - 1)) hk
  omega

/-- A piece starts inside the string. -/
theorem mem_chunks {k : Nat} (hk : 0 < k) {bs seg : List (BitVec 8)} (h : seg ∈ chunks k bs) :
    ∃ i, k * i < bs.length ∧ seg = (bs.drop (k * i)).take k := by
  obtain ⟨i, hi, rfl⟩ := List.mem_map.mp h
  refine ⟨i, ?_, rfl⟩
  have hlt := (Nat.lt_div_iff_mul_lt hk).mp (List.mem_range.mp hi)
  rw [Nat.mul_comm] at hlt
  omega

/-! ## 5. Numbers in a string -/

theorem getD_leBytes {n j : Nat} (v : Nat) (hj : j < n) : (leBytes n v).getD j 0 = BitVec.ofNat 8 (v / 256 ^ j) := by
  induction n generalizing v j with
  | zero => exact absurd hj (Nat.not_lt_zero j)
  | succ n ih =>
      cases j with
      | zero => simp [leBytes]
      | succ j =>
          rw [leBytes, List.getD_cons_succ, ih (v / 256) (by omega), Nat.div_div_eq_div_mul, Nat.pow_succ']

theorem byteAt_ofNat {w j : Nat} (v : Nat) (h : 8 * (j + 1) ≤ w) :
    byteAt (BitVec.ofNat w v) j = BitVec.ofNat 8 (v / 256 ^ j) := by
  apply BitVec.eq_of_getLsbD_eq
  intro t ht
  rw [byteAt, BitVec.getLsbD_extractLsb', BitVec.getLsbD_ofNat, BitVec.getLsbD_ofNat, show 256 = 2 ^ 8 from rfl,
    ← Nat.pow_mul, Nat.testBit_div_two_pow, decide_eq_true ht, decide_eq_true (by omega), Nat.add_comm (8 * j)]
  rfl

/-- A word of the bytes of a number. -/
theorem ofBytes_leBytes (k v : Nat) : ofBytes k (leBytes k v) = BitVec.ofNat (8 * k) v :=
  eq_of_byteAt fun j hj => by rw [byteAt_ofBytes _ hj, getD_leBytes v hj, byteAt_ofNat v (by omega)]

/-- The bytes of a word, as a number. -/
theorem leBytes_ofBytes {k : Nat} {bs : List (BitVec 8)} (h : bs.length = k) :
    leBytes k (ofBytes k bs).toNat = bs := by
  refine List.ext_getElem (by rw [length_leBytes, h]) fun j hj hj' => ?_
  rw [length_leBytes] at hj
  rw [← List.getD_eq_getElem _ 0, ← List.getD_eq_getElem _ 0, getD_leBytes _ hj, ← byteAt_ofBytes bs hj,
    ← byteAt_ofNat (w := 8 * k) _ (by omega), BitVec.ofNat_toNat, BitVec.setWidth_eq]

theorem length_numbers (k : Nat) (values : List Nat) : (values.flatMap (leBytes k)).length = k * values.length := by
  induction values with
  | nil => rfl
  | cons v values ih => rw [List.flatMap_cons, List.length_append, ih, length_leBytes, List.length_cons,
      Nat.mul_succ, Nat.add_comm]

/-- **The words of a string of numbers.** -/
theorem lines_numbers {k : Nat} (hk : 0 < k) (values : List Nat) (rest : List (BitVec 8)) :
    lines k (values.flatMap (leBytes k) ++ rest) = values.map (BitVec.ofNat (8 * k)) ++ lines k rest := by
  induction values with
  | nil => rfl
  | cons v values ih =>
      rw [List.flatMap_cons, List.append_assoc, lines_append hk (length_leBytes k v), ih, ofBytes_leBytes]
      rfl

/-- The words of zeros. -/
theorem lines_zeros {k : Nat} (hk : 0 < k) (m : Nat) : lines k (List.replicate (k * m) 0) = List.replicate m 0 := by
  have hone : leBytes k 0 = List.replicate k 0 := by
    refine List.ext_getElem (by simp) fun j hj hj' => ?_
    rw [length_leBytes] at hj
    rw [← List.getD_eq_getElem _ 0, getD_leBytes 0 hj, List.getElem_replicate, Nat.zero_div]
    rfl
  have hzeros : (List.replicate m 0).flatMap (leBytes k) = List.replicate (k * m) (0 : BitVec 8) := by
    induction m with
    | zero => rfl
    | succ m ih => rw [List.replicate_succ, List.flatMap_cons, ih, hone, Nat.mul_succ, Nat.add_comm, List.replicate_add]
  have h := lines_numbers hk (List.replicate m 0) []
  rw [List.append_nil, hzeros, lines_nil hk, List.append_nil, List.map_replicate] at h
  exact h

/-- **A string of whole words is the numbers they are.** -/
theorem numbers_lines {k m : Nat} (hk : 0 < k) {bs : List (BitVec 8)} (h : bs.length = k * m) :
    ((lines k bs).map BitVec.toNat).flatMap (leBytes k) = bs := by
  induction m generalizing bs with
  | zero =>
      rw [List.length_eq_zero_iff.mp (h.trans (Nat.mul_zero k)), lines_nil hk]
      rfl
  | succ m ih =>
      rw [Nat.mul_succ] at h
      have hfirst : (bs.take k).length = k := by rw [List.length_take]; omega
      have hrest : (bs.drop k).length = k * m := by rw [List.length_drop]; omega
      conv_lhs => rw [← List.take_append_drop k bs]
      rw [lines_append hk hfirst, List.map_cons, List.flatMap_cons, ih hrest, leBytes_ofBytes hfirst,
        List.take_append_drop]

end Bits
