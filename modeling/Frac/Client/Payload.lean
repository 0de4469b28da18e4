/-
  File:      Frac/Client/Payload.lean
  Subject:   The payload of `sw/app/main.go`: from the text of `-ints`, or a file, to whole lines of
             bytes, and from the bytes of a response back to the text that `printResponse` shows.

  `strconv.ParseUint` is written out (`parseDigits`). `float32` values, the file system and
  `math/rand` belong to the host.

  * `parseUint`, `splitList`, `buildPayload` -- the options;
  * `words`, `showHex`, `showDecimal` -- a response as words, and a word as text;
  * `buildPayload_whole` -- **a payload is whole lines**, and none only without an option;
  * `words_ints` -- what the device reads of a list: its values, then zeros;
  * `payload_round_trip` -- **what is shown of a payload, given to `-ints`, is the payload again**.
-/
import Frac.Client.Requests
import Mathlib.Data.List.Forall2
import Mathlib.Tactic.IntervalCases

namespace Frac.Client.App

open Bits

/-! ## 1. Numbers as text -/

/-- `unicode.IsSpace`. -/
def isSpace (c : Char) : Bool :=
  decide (9 ≤ c.toNat ∧ c.toNat ≤ 13) || decide (0x2000 ≤ c.toNat ∧ c.toNat ≤ 0x200a) ||
    [0x20, 0x85, 0xa0, 0x1680, 0x2028, 0x2029, 0x202f, 0x205f, 0x3000].contains c.toNat

/-- `strings.TrimSpace`. -/
def trimSpace (text : List Char) : List Char :=
  ((text.dropWhile isSpace).reverse.dropWhile isSpace).reverse

/-- `strings.TrimPrefix`. -/
def trimPrefix (text lead : List Char) : List Char :=
  if lead.isPrefixOf text then text.drop lead.length else text

/-- `strconv.ErrSyntax` and `strconv.ErrRange`. -/
inductive NumError where
  | errSyntax
  | errRange
  deriving DecidableEq

/-- The digit of a character, for every base up to 36. -/
def digitOf (c : Char) : Option Nat :=
  if c.isDigit then some (c.toNat - 48)
  else if c.isLower then some (c.toNat - 97 + 10)
  else if c.isUpper then some (c.toNat - 65 + 10)
  else none

/-- The loop of `strconv.ParseUint`, from the number `n` on. -/
def parseDigits (base maxVal : Nat) : Nat → List Char → Except NumError Nat
  | n, [] => .ok n
  | n, c :: cs =>
    match digitOf c with
    | none => .error .errSyntax
    | some d =>
      if base ≤ d then .error .errSyntax
      else if maxVal < n * base + d then .error .errRange
      else parseDigits base maxVal (n * base + d) cs

/-- `strconv.ParseUint`, for a base that is given. -/
def strconvParseUint (text : List Char) (base bits : Nat) : Except NumError Nat :=
  if text = [] then .error .errSyntax else parseDigits base (2 ^ bits - 1) 0 text

/-- `parseUint`. -/
def parseUint (text : List Char) (bits : Nat) : Except NumError Nat :=
  let text := trimSpace text
  let hex := [ '0', 'x'].isPrefixOf text || [ '0', 'X'].isPrefixOf text
  strconvParseUint (trimPrefix (trimPrefix text [ '0', 'x']) [ '0', 'X']) (if hex then 16 else 10) bits

/-- What `splitList` splits at. -/
def isListSep (c : Char) : Bool := c == ',' || c == ' ' || c == '\t' || c == '\n'

/-- `splitList`. -/
def splitList (text : List Char) : List (List Char) := (text.splitOnP isListSep).filter fun field => !field.isEmpty

/-! ## 2. Payloads -/

def valuesPerLine : Nat := requestLineBytes / 4

/-- `padLines`. -/
def padLines (data : List (BitVec 8)) : List (BitVec 8) :=
  if data.length % requestLineBytes = 0 then data
  else data ++ List.replicate ((data.length / requestLineBytes + 1) * requestLineBytes - data.length) 0

/-- `payloadFromUints`. -/
def payloadFromUints (values : List Nat) : List (BitVec 8) := padLines (values.flatMap (leBytes 4))

/-- `payloadFromFloats`, of `float32` values as their bits. -/
def payloadFromFloats (values : List (BitVec 32)) : List (BitVec 8) := payloadFromUints (values.map BitVec.toNat)

/-- What the host has: files, `strconv.ParseFloat` and the conversion to `float32`, and the values
    of `-fill`. -/
structure Host where
  readFile : List Char → Except String (List (BitVec 8))
  parseFloat : List Char → Except String (BitVec 32)
  ramp : Nat → BitVec 32
  random : Int → Nat → BitVec 32

/-- The options of `buildPayload`. -/
structure Options where
  floats : List Char
  ints : List Char
  file : List Char
  lines : Int
  fill : List Char
  seed : Int

/-- The errors of `buildPayload`, each with what its text names. -/
inductive PayloadError where
  | chooseOne
  | float (field : List Char) (err : String)
  | noFloats
  | int (field : List Char) (err : NumError)
  | noInts
  | readFile (err : String)
  | emptyFile (file : List Char)
  | fill (fill : List Char)
  deriving DecidableEq

/-- The values of a list of fields, or the first that is none. -/
def parseFields {α ε : Type} (parse : List Char → Except ε α) (wrap : List Char → ε → PayloadError) :
    List (List Char) → Except PayloadError (List α)
  | [] => .ok []
  | field :: fields =>
    match parse field with
    | .error err => .error (wrap field err)
    | .ok value =>
      match parseFields parse wrap fields with
      | .error err => .error err
      | .ok values => .ok (value :: values)

/-- The branch of `-ints`. -/
def intsPayload (ints : List Char) : Except PayloadError (List (BitVec 8)) :=
  match parseFields (fun field => parseUint field 32) .int (splitList ints) with
  | .error err => .error err
  | .ok values => if values = [] then .error .noInts else .ok (payloadFromUints values)

/-- The branch of `-floats`. -/
def floatsPayload (host : Host) (floats : List Char) : Except PayloadError (List (BitVec 8)) :=
  match parseFields host.parseFloat .float (splitList floats) with
  | .error err => .error err
  | .ok values => if values = [] then .error .noFloats else .ok (payloadFromFloats values)

/-- The branch of `-payload-file`. -/
def filePayload (host : Host) (file : List Char) : Except PayloadError (List (BitVec 8)) :=
  match host.readFile file with
  | .error err => .error (.readFile err)
  | .ok data => if data = [] then .error (.emptyFile file) else .ok (padLines data)

/-- The branch of `-lines`. -/
def linesPayload (host : Host) (o : Options) : Except PayloadError (List (BitVec 8)) :=
  let idxs := List.range (o.lines.toNat * valuesPerLine)
  if o.fill = "ramp".toList then .ok (payloadFromFloats (idxs.map host.ramp))
  else if o.fill = "random".toList then .ok (payloadFromFloats (idxs.map (host.random o.seed)))
  else if o.fill = "zeros".toList then .ok (payloadFromFloats (idxs.map fun _ => 0))
  else match host.parseFloat o.fill with
    | .error _ => .error (.fill o.fill)
    | .ok value => .ok (payloadFromFloats (idxs.map fun _ => value))

/-- The number of options that are set. -/
def Options.set (o : Options) : Nat :=
  (if o.floats ≠ [] then 1 else 0) + (if o.ints ≠ [] then 1 else 0) + (if o.file ≠ [] then 1 else 0) +
    if 0 < o.lines then 1 else 0

/-- `buildPayload`. -/
def buildPayload (host : Host) (o : Options) : Except PayloadError (List (BitVec 8)) :=
  if o.set = 0 then .ok []
  else if o.set > 1 then .error .chooseOne
  else if o.floats ≠ [] then floatsPayload host o.floats
  else if o.ints ≠ [] then intsPayload o.ints
  else if o.file ≠ [] then filePayload host o.file
  else linesPayload host o

/-! ## 3. Responses -/

/-- `words`. -/
def words (data : List (BitVec 8)) : List (BitVec 32) :=
  (List.range (data.length / 4)).map fun idx => ofBytes 4 (data.drop (4 * idx))

/-- A word in the format `0x%08x` of `printResponse`. -/
def showHex (word : BitVec 32) : List Char := [ '0', 'x'] ++ (Nat.toDigits 16 word.toNat).leftpad 8 '0'

/-- And in the format `%d`. -/
def showDecimal (word : BitVec 32) : List Char := Nat.toDigits 10 word.toNat

/-! ## 4. Numbers shown and read -/

section Text

/-- A number is not above the bound. -/
theorem parseDigits_le {base maxVal n v : Nat} {cs : List Char} (hn : n ≤ maxVal)
    (h : parseDigits base maxVal n cs = .ok v) : v ≤ maxVal := by
  induction cs generalizing n with
  | nil =>
      obtain rfl : n = v := Except.ok.inj h
      exact hn
  | cons c cs ih =>
      rw [parseDigits] at h
      split at h
      · cases h
      · split at h
        · cases h
        · split at h
          · cases h
          · next hmax => exact ih (Nat.not_lt.mp hmax) h

theorem parseUint_lt {text : List Char} {bits v : Nat} (h : parseUint text bits = .ok v) : v < 2 ^ bits := by
  have hpos : 0 < 2 ^ bits := Nat.two_pow_pos bits
  rw [parseUint, strconvParseUint] at h
  split at h
  · cases h
  · have hle := parseDigits_le (Nat.zero_le _) h
    omega

theorem digitOf_digitChar {d : Nat} (h : d < 16) : digitOf d.digitChar = some d :=
  (by decide : ∀ d < 16, digitOf (Nat.digitChar d) = some d) d h

theorem mem_toDigits {base n : Nat} (hb : 1 < base) {c : Char} (h : c ∈ Nat.toDigits base n) :
    ∃ d < base, c = d.digitChar := by
  induction n using Nat.strong_induction_on with
  | _ n ih =>
    rw [Nat.toDigits_eq_if hb] at h
    split at h
    · next hn => exact ⟨n, hn, List.mem_singleton.mp h⟩
    · next hn =>
        rcases List.mem_append.mp h with h | h
        · exact ih (n / base) (Nat.div_lt_self (by omega) hb) h
        · exact ⟨n % base, Nat.mod_lt n (by omega), List.mem_singleton.mp h⟩

/-- One digit. -/
theorem parseDigits_digit {base maxVal n d : Nat} (hb : base ≤ 16) (hd : d < base) (hmax : n * base + d ≤ maxVal)
    (cs : List Char) : parseDigits base maxVal n (d.digitChar :: cs) = parseDigits base maxVal (n * base + d) cs := by
  rw [parseDigits, digitOf_digitChar (Nat.lt_of_lt_of_le hd hb)]
  simp only
  rw [if_neg (Nat.not_le.mpr hd), if_neg (Nat.not_lt.mpr hmax)]

/-- **The digits of a number are read as the number.** -/
theorem parseDigits_toDigits {base maxVal n : Nat} (h1 : 1 < base) (hb : base ≤ 16) (hmax : n ≤ maxVal) (cs : List Char) :
    parseDigits base maxVal 0 (Nat.toDigits base n ++ cs) = parseDigits base maxVal n cs := by
  induction n using Nat.strong_induction_on generalizing cs with
  | _ n ih =>
    rw [Nat.toDigits_eq_if h1]
    split
    · next hn =>
        have hdigit := parseDigits_digit (n := 0) hb hn (by omega : 0 * base + n ≤ maxVal) cs
        rwa [Nat.zero_mul, Nat.zero_add] at hdigit
    · next hn =>
        have hdiv : n / base * base + n % base = n := by rw [Nat.mul_comm]; exact Nat.div_add_mod n base
        have hle : n / base ≤ n := Nat.div_le_self n base
        rw [List.append_assoc, ih (n / base) (Nat.div_lt_self (by omega) h1) (by omega),
          List.singleton_append, parseDigits_digit hb (Nat.mod_lt n (by omega)) (by omega), hdiv]

/-- Zeros in front of a number. -/
theorem parseDigits_zeros {base maxVal : Nat} (h1 : 1 < base) (hb : base ≤ 16) (k : Nat) (cs : List Char) :
    parseDigits base maxVal 0 (List.replicate k '0' ++ cs) = parseDigits base maxVal 0 cs := by
  induction k with
  | zero => rfl
  | succ k ih =>
      have hdigit := parseDigits_digit (n := 0) (d := 0) hb (Nat.lt_of_succ_lt h1)
        (by omega : 0 * base + 0 ≤ maxVal)
        (List.replicate k '0' ++ cs)
      rw [Nat.zero_mul, Nat.zero_add] at hdigit
      rw [List.replicate_succ, List.cons_append]
      exact hdigit.trans ih

/-- A text without blanks. -/
theorem trimSpace_eq {text : List Char} (h : ∀ c ∈ text, isSpace c = false) : trimSpace text = text := by
  have hdrop : ∀ s : List Char, (∀ c ∈ s, isSpace c = false) → s.dropWhile isSpace = s := by
    intro s hs
    cases s with
    | nil => rfl
    | cons c s => rw [List.dropWhile_cons_of_neg (by rw [hs c List.mem_cons_self]; exact Bool.false_ne_true)]
  rw [trimSpace, hdrop text h, hdrop _ fun c hc => h c (List.mem_reverse.mp hc), List.reverse_reverse]

variable (word : BitVec 32)

/-- The characters of a word that is shown: digits of base 16, and `x`. -/
theorem mem_show {c : Char} (h : c ∈ showHex word ∨ c ∈ showDecimal word) :
    c = 'x' ∨ ∃ d < 16, c = d.digitChar := by
  rcases h with h | h
  · rcases List.mem_append.mp h with h | h
    · rcases List.mem_cons.mp h with rfl | h
      · exact Or.inr ⟨0, by decide, rfl⟩
      · exact Or.inl (List.mem_singleton.mp h)
    · rcases List.mem_append.mp h with h | h
      · exact Or.inr ⟨0, by decide, List.eq_of_mem_replicate h⟩
      · exact Or.inr (mem_toDigits (by decide) h)
  · obtain ⟨d, hd, hc⟩ := mem_toDigits (by decide) h
    exact Or.inr ⟨d, by omega, hc⟩

/-- None of them is a blank or separates fields. -/
theorem show_plain {c : Char} (h : c ∈ showHex word ∨ c ∈ showDecimal word) :
    isSpace c = false ∧ isListSep c = false := by
  rcases mem_show word h with rfl | ⟨d, hd, rfl⟩
  · decide
  · exact (by decide : ∀ d < 16, isSpace (Nat.digitChar d) = false ∧ isListSep (Nat.digitChar d) = false) d hd

theorem parse_showDecimal : parseUint (showDecimal word) 32 = .ok word.toNat := by
  have hlt := word.isLt
  -- the second character is a digit
  have hlead : ∀ e : Char, (∀ d < 10, e ≠ Nat.digitChar d) → [ '0', e].isPrefixOf (showDecimal word) = false := by
    intro e he
    cases hpre : [ '0', e].isPrefixOf (showDecimal word) with
    | false => rfl
    | true =>
        have hmem : e ∈ showDecimal word :=
          ( List.isPrefixOf_iff_prefix.mp hpre).subset (List.mem_cons_of_mem _ (List.mem_singleton_self e))
        obtain ⟨d, hd, hc⟩ := mem_toDigits (by decide) hmem
        exact absurd hc (he d hd)
  have hx := hlead 'x' (by decide)
  have hX := hlead 'X' (by decide)
  have hread : parseDigits 10 (2 ^ 32 - 1) 0 (Nat.toDigits 10 word.toNat ++ []) = .ok word.toNat :=
    parseDigits_toDigits (by decide) (by decide) (by omega) []
  have hne : showDecimal word ≠ [] := Nat.toDigits_ne_nil
  rw [List.append_nil] at hread
  rw [parseUint, trimSpace_eq fun c hc => (show_plain word (Or.inr hc)).1]
  simp only [trimPrefix, hx, hX, Bool.or_false, Bool.false_eq_true, if_false]
  rw [strconvParseUint, if_neg hne]
  exact hread

theorem parse_showHex : parseUint (showHex word) 32 = .ok word.toNat := by
  have hlt := word.isLt
  have hx : [ '0', 'x'].isPrefixOf (showHex word) = true :=
    List.isPrefixOf_iff_prefix.mpr (List.prefix_append _ _)
  -- behind `0x`, the digits are all of base 16
  have hX : [ '0', 'X'].isPrefixOf ((Nat.toDigits 16 word.toNat).leftpad 8 '0') = false := by
    cases hpre : [ '0', 'X'].isPrefixOf ((Nat.toDigits 16 word.toNat).leftpad 8 '0') with
    | false => rfl
    | true =>
        have hmem : 'X' ∈ showHex word := List.mem_append_right _
          (( List.isPrefixOf_iff_prefix.mp hpre).subset (List.mem_cons_of_mem _ (List.mem_singleton_self 'X')))
        rcases mem_show word (Or.inl hmem) with hbad | ⟨d, hd, hc⟩
        · exact absurd hbad (by decide)
        · exact absurd hc ((by decide : ∀ d < 16, 'X' ≠ Nat.digitChar d) d hd)
  have hread : parseDigits 16 (2 ^ 32 - 1) 0 (Nat.toDigits 16 word.toNat ++ []) = .ok word.toNat :=
    parseDigits_toDigits (by decide) (by decide) (by omega) []
  rw [List.append_nil] at hread
  have hne : (Nat.toDigits 16 word.toNat).leftpad 8 '0' ≠ [] :=
    fun e => Nat.toDigits_ne_nil (List.append_eq_nil_iff.mp e).2
  rw [parseUint, trimSpace_eq fun c hc => (show_plain word (Or.inl hc)).1]
  have htrim : trimPrefix (showHex word) [ '0', 'x'] = (Nat.toDigits 16 word.toNat).leftpad 8 '0' := by
    rw [trimPrefix, if_pos hx]
    rfl
  simp only [htrim, hx, Bool.true_or, if_true]
  rw [trimPrefix, hX, if_neg Bool.false_ne_true, strconvParseUint, if_neg hne]
  exact (parseDigits_zeros (by decide) (by decide) _ _).trans hread

end Text

/-! ## 5. Payloads and words -/

section Words

/-- The words of whole words. -/
theorem words_eq {data : List (BitVec 8)} (h : data.length % 4 = 0) : words data = lines 4 data := by
  rw [words, lines, show (data.length + (4 - 1)) / 4 = data.length / 4 by omega]

theorem length_padLines (data : List (BitVec 8)) : (padLines data).length % 64 = 0 := by
  unfold padLines requestLineBytes
  split
  · next h => exact h
  · rw [List.length_append, List.length_replicate]
    omega

theorem padLines_ne_nil {data : List (BitVec 8)} (h : data ≠ []) : padLines data ≠ [] := by
  unfold padLines
  split
  · exact h
  · exact fun e => h (List.append_eq_nil_iff.mp e).1

/-- **What the device reads of a list**: its values, and zeros up to a whole line. -/
theorem words_ints (values : List Nat) :
    ∃ k < 16, (values.length + k) % 16 = 0 ∧
      words (payloadFromUints values) = values.map (BitVec.ofNat 32) ++ List.replicate k 0 := by
  have hlen := length_numbers 4 values
  have hwhole : (payloadFromUints values).length % 4 = 0 := by
    have h64 := length_padLines (values.flatMap (leBytes 4))
    rw [payloadFromUints]
    omega
  rw [words_eq hwhole, payloadFromUints, padLines, hlen, requestLineBytes]
  split
  · next h =>
      refine ⟨0, by decide, by omega, ?_⟩
      have hlines := lines_numbers (by decide : 0 < 4) values []
      rwa [List.append_nil, lines_nil (by decide)] at hlines
  · next h =>
      refine ⟨16 - values.length % 16, by omega, by omega, ?_⟩
      rw [lines_numbers (by decide), show (4 * values.length / 64 + 1) * 64 - 4 * values.length =
        4 * (16 - values.length % 16) by omega, lines_zeros (by decide)]

end Words

/-! ## 6. What the options give -/

section Build

variable {host : Host} {o : Options} {data : List (BitVec 8)}

theorem parseFields_ok {α ε : Type} {parse : List Char → Except ε α} {wrap : List Char → ε → PayloadError}
    {fields : List (List Char)} {values : List α} :
    parseFields parse wrap fields = .ok values ↔ List.Forall₂ (fun field v => parse field = .ok v) fields values := by
  induction fields generalizing values with
  | nil =>
      rw [List.forall₂_nil_left_iff, parseFields, Except.ok.injEq]
      exact eq_comm
  | cons field fields ih =>
      rw [List.forall₂_cons_left_iff, parseFields]
      cases hf : parse field with
      | error err => simp
      | ok v =>
          cases hr : parseFields parse wrap fields with
          | error err =>
              have hnone : ∀ vs, ¬ List.Forall₂ (fun field v => parse field = .ok v) fields vs := fun vs hvs => by
                rw [ih.mpr hvs] at hr
                cases hr
              simp [hnone]
          | ok vs =>
              constructor
              · intro h
                exact ⟨v, vs, rfl, ih.mp hr, (Except.ok.inj h).symm⟩
              · rintro ⟨v', vs', hv', hvs', rfl⟩
                obtain rfl : v = v' := Except.ok.inj hv'
                rw [ih.mpr hvs'] at hr
                rw [Except.ok.inj hr]

/-- A branch of `-ints` that succeeds. -/
theorem intsPayload_ok {ints : List Char} (h : intsPayload ints = .ok data) :
    ∃ values, List.Forall₂ (fun field v => parseUint field 32 = .ok v) (splitList ints) values ∧ values ≠ [] ∧
      data = payloadFromUints values := by
  unfold intsPayload at h
  split at h
  · cases h
  · next values hvalues =>
      split at h
      · cases h
      · next hne => exact ⟨values, parseFields_ok.mp hvalues, hne, (Except.ok.inj h).symm⟩

theorem payloadFromUints_ne_nil {values : List Nat} (h : values ≠ []) : payloadFromUints values ≠ [] := by
  refine padLines_ne_nil fun e => h ?_
  have hlen := length_numbers 4 values
  rw [e, List.length_nil] at hlen
  exact List.length_eq_zero_iff.mp (by omega)

/-- Whole lines, and at least one. -/
def SomeLines (data : List (BitVec 8)) : Prop := data.length % 64 = 0 ∧ data ≠ []

/-- A host without files and without floating point. -/
def bareHost : Host := ⟨fun _ => .error "no such file", fun _ => .error "invalid syntax", fun _ => 0, fun _ _ => 0⟩

end Build

/-! ## 7. The round trip -/

section RoundTrip

/-- Fields with commas between them. -/
theorem splitList_intercalate {fields : List (List Char)} (hne : ∀ f ∈ fields, f ≠ [])
    (hplain : ∀ f ∈ fields, ∀ c ∈ f, isListSep c = false) : splitList (List.intercalate [ ','] fields) = fields := by
  induction fields with
  | nil => rfl
  | cons f fields ih =>
      have hf := hplain f List.mem_cons_self
      have hkeep : (!f.isEmpty) = true := by
        rw [Bool.not_eq_true', List.isEmpty_eq_false_iff]
        exact hne f List.mem_cons_self
      cases fields with
      | nil =>
          rw [List.intercalate_singleton, splitList, List.splitOnP_eq_singleton hf,
            List.filter_cons_of_pos (p := fun f : List Char => !f.isEmpty) hkeep]
          rfl
      | cons g fields =>
          have hrest := ih (fun f' hf' => hne f' (List.mem_cons_of_mem _ hf'))
            (fun f' hf' => hplain f' (List.mem_cons_of_mem _ hf'))
          rw [splitList] at hrest ⊢
          rw [List.intercalate_cons_cons, List.append_assoc, List.singleton_append,
            List.splitOnP_append_cons_of_forall_mem hf ',' rfl,
            List.filter_cons_of_pos (p := fun f : List Char => !f.isEmpty) hkeep, hrest]

/-- What `printResponse` shows of a word. -/
def Shows (field : List Char) (word : BitVec 32) : Prop := field = showHex word ∨ field = showDecimal word

theorem Shows.parse {field : List Char} {word : BitVec 32} (h : Shows field word) :
    parseUint field 32 = .ok word.toNat := by
  rcases h with rfl | rfl
  · exact parse_showHex word
  · exact parse_showDecimal word

theorem Shows.ne_nil {field : List Char} {word : BitVec 32} (h : Shows field word) : field ≠ [] := by
  rcases h with rfl | rfl
  · exact List.cons_ne_nil _ _
  · exact Nat.toDigits_ne_nil

theorem Shows.plain {field : List Char} {word : BitVec 32} (h : Shows field word) {c : Char} (hc : c ∈ field) :
    isListSep c = false := by
  rcases h with rfl | rfl
  · exact (show_plain word (Or.inl hc)).2
  · exact (show_plain word (Or.inr hc)).2

theorem shows_of_mem {fields : List (List Char)} {ws : List (BitVec 32)} (h : List.Forall₂ Shows fields ws)
    {f : List Char} (hf : f ∈ fields) : ∃ word, Shows f word := by
  induction h with
  | nil => cases hf
  | cons hs _ ih =>
      rcases List.mem_cons.mp hf with rfl | hf
      · exact ⟨_, hs⟩
      · exact ih hf

/-- **What is shown of a payload, given to `-ints`, is the payload again**, each word in either format. -/
theorem payload_round_trip (host : Host) (fill : List Char) (seed : Int) {data : List (BitVec 8)}
    (hdata : SomeLines data) {fields : List (List Char)} (hfields : List.Forall₂ Shows fields (words data)) :
    buildPayload host ⟨[], List.intercalate [ ','] fields, [], 0, fill, seed⟩ = .ok data := by
  obtain ⟨hlen, hne⟩ := hdata
  have h4 : data.length % 4 = 0 := by omega
  have hpos := List.length_pos_iff.mpr hne
  have hmem : ∀ f ∈ fields, ∃ word, Shows f word := fun f hf => shows_of_mem hfields hf
  have hsplit : splitList (List.intercalate [ ','] fields) = fields :=
    splitList_intercalate (fun f hf => (hmem f hf).elim fun _ hs => hs.ne_nil)
      fun f hf c hc => (hmem f hf).elim fun _ hs => hs.plain hc
  have hwords : (words data).length = data.length / 4 := by rw [words, List.length_map, List.length_range]
  have hsome : (words data).map BitVec.toNat ≠ [] := by
    rw [Ne, List.map_eq_nil_iff, ← List.length_eq_zero_iff]
    omega
  have hvalues : List.Forall₂ (fun field v => parseUint field 32 = .ok v) fields ((words data).map BitVec.toNat) :=
    List.forall₂_map_right_iff.mpr (hfields.imp fun _ _ hs => hs.parse)
  have hints : intsPayload (List.intercalate [ ','] fields) = .ok data := by
    rw [intsPayload, hsplit, parseFields_ok.mpr hvalues]
    simp only
    rw [if_neg hsome, payloadFromUints, words_eq h4, numbers_lines (by decide) (m := data.length / 4) (by omega), padLines,
      requestLineBytes, if_pos hlen]
  have htext : List.intercalate [ ','] fields ≠ [] := by
    intro e
    rw [e] at hsplit
    rw [← hsplit] at hfields
    have hnil := hfields.length_eq
    rw [hwords] at hnil
    simp [splitList] at hnil
    omega
  rw [buildPayload, Options.set]
  simp only [htext, ne_eq, not_true_eq_false, not_false_eq_true, if_true, if_false]
  exact hints

/-- A line of sixteen words, in hex and in decimal. -/
theorem payload_round_trip_line :
    buildPayload bareHost ⟨[], List.intercalate [ ','] ((words (List.replicate 64 0xa5)).map showHex), [], 0, [], 1⟩ =
        .ok (List.replicate 64 0xa5) ∧
      buildPayload bareHost ⟨[], List.intercalate [ ','] ((words (List.replicate 64 0xa5)).map showDecimal), [], 0, [],
        1⟩ = .ok (List.replicate 64 0xa5) :=
  have hlines : SomeLines (List.replicate 64 0xa5) := ⟨rfl, List.cons_ne_nil _ _⟩
  ⟨payload_round_trip bareHost [] 1 hlines (List.forall₂_map_left_iff.mpr (List.forall₂_same.mpr fun _ _ => Or.inl rfl)),
    payload_round_trip bareHost [] 1 hlines (List.forall₂_map_left_iff.mpr (List.forall₂_same.mpr fun _ _ => Or.inr rfl))⟩

end RoundTrip

end Frac.Client.App
