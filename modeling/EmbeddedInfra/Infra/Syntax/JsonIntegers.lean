import EmbeddedInfra.Infra.Stream.DecimalDigits
import EmbeddedInfra.Infra.Syntax.JsonFormatter
import EmbeddedInfra.Infra.Syntax.JsonTokenizerBounds

set_option autoImplicit false

/-! # Integers in JSON

`infra::JsonObjectFormatter` writes integers of 32 and of 64 bits, `infra::JsonTokenizer` adds up their
digits in an `int32_t`. Arithmetic on signed integers that leaves their range is undefined, and is `none`
here.
-/

namespace EmbeddedInfra.Json

open Decimal JsonTokenizer JsonObjectIterator

/-! ## Writing -/

/-- `OutputAsDecimal`, without padding. -/
def outputAsDecimal (v : Nat) (negative : Bool) : Text :=
  (if negative then [byte '-'] else []) ++ outputDecimalDigits v 21 (raiseDecimalMask v 20 1)

/-- `operator<<(int64_t)`. The lowest number has no negation. -/
def outputSigned (v : Int) : Option Text :=
  if v < 0 then if v = -9223372036854775808 then none else some (outputAsDecimal v.natAbs true)
  else some (outputAsDecimal v.natAbs false)

/-- The integers that can be added to an object. -/
inductive Number
  | int32 (value : Int32)
  | uint32 (value : UInt32)
  | int64 (value : Int64)

namespace Number

def toInt : Number → Int
  | int32 value => value.toInt
  | uint32 value => value.toNat
  | int64 value => value.toInt

/-- `operator<<` -/
def output : Number → Option Text
  | int32 value => outputSigned value.toInt
  | uint32 value => some (outputAsDecimal value.toNat false)
  | int64 value => outputSigned value.toInt

end Number

/-- `Add(tagName, tag)` of an integer. -/
def JsonObjectFormatter.addNumber (f : Formatter) (tagName : Text) (tag : Number) : Option Formatter := do
  let number ← tag.output
  return {
    text := f.insertSeparation.text ++ [quote] ++ tagName ++ [quote, byte ':'] ++ number
    empty := f.insertSeparation.empty }

/-- The object with one integer. -/
def produced (tagName : Text) (tag : Number) : Option Text :=
  (JsonObjectFormatter.addNumber JsonObjectFormatter.start tagName tag).map JsonObjectFormatter.finish

/-! ## Reading -/

/-- The result of an operation on `int32_t`. -/
def int32? (v : Int) : Option Int := if -2147483648 ≤ v ∧ v ≤ 2147483647 then some v else none

/-- `value = value * 10 + integer[index] - '0'`, for every digit. -/
def accumulate : Text → Int → Option Int
  | [], value => some value
  | c :: digits, value => do
      let product ← int32? (value * 10)
      let sum ← int32? (product + c.toNat)
      let value ← int32? (sum - 0x30)
      accumulate digits value

/-- The value of an integer token. -/
def integerValue (sign : Bool) (digits : Text) : Option Int := do
  let value ← accumulate digits 0
  if sign then int32? (value * (-1)) else return value

namespace JsonTokenizer

/-- The next token is an integer, and its value leaves the range of `int32_t`. -/
def overflows (t : JsonTokenizer) : Bool :=
  match t.skipWhitespace.rest with
  | [] => false
  | c :: text =>
      if c = byte '-' then (integerValue true (text.takeWhile isdigit)).isNone
      else isdigit c && (integerValue false ((c :: text).takeWhile isdigit)).isNone

end JsonTokenizer

namespace JsonObject

/-- The loop of `GetValue<int32_t>`: the integer, and whether the object has an error then. -/
def getIntegerFrom (key : Text) : Nat → JsonObjectIterator → Option (Int32 × Bool)
  | 0, _ => none
  | turns + 1, it =>
      -- `SetError` and a default value
      if it.state = ObjectState.ended then some (0, true)
      else do
        let equal ← JsonString.equal it.key key
        match equal, it.value with
        | true, .integer value => return (value, it.error)
        | _, _ =>
            let it ← it.advance
            getIntegerFrom key turns it

def getInteger (objectString key : Text) : Option (Int32 × Bool) := do
  let it ← first objectString
  getIntegerFrom key (objectString.length + 1) it

end JsonObject

/-! ## Digits -/

variable {d : Nat} {v value : Int} {c : UInt8} {digits : Text} {sign : Bool}

theorem isdigit_ofNat (hd : d < 10) : isdigit (UInt8.ofNat (d + 0x30)) = true := by
  interval_cases d <;> decide

theorem toNat_digit (hd : d < 10) : (UInt8.ofNat (d + 0x30)).toNat = d + 0x30 := by
  rw [UInt8.toNat_ofNat']
  omega

theorem int32?_of_le (hlow : -2147483648 ≤ v) (hhigh : v ≤ 2147483647) : int32? v = some v :=
  if_pos ⟨hlow, hhigh⟩

theorem int32?_of_gt (h : 2147483647 < v) : int32? v = none :=
  if_neg (fun hv => absurd hv.2 (not_le.mpr h))

theorem accumulate_cons {product sum next : Int}
    (hproduct : int32? (value * 10) = some product) (hsum : int32? (product + c.toNat) = some sum)
    (hnext : int32? (sum - 0x30) = some next) :
    accumulate (c :: digits) value = accumulate digits next := by
  simp only [accumulate, hproduct, hsum, hnext, Option.bind_eq_bind, Option.bind_some]

theorem accumulate_product (h : int32? (value * 10) = none) :
    accumulate (c :: digits) value = none := by
  rw [accumulate, h, Option.bind_eq_bind, Option.bind_none]

theorem accumulate_sum {product : Int}
    (hproduct : int32? (value * 10) = some product) (h : int32? (product + c.toNat) = none) :
    accumulate (c :: digits) value = none := by
  simp only [accumulate, hproduct, h, Option.bind_eq_bind, Option.bind_some, Option.bind_none]

/-- One digit more. The code of the digit is added before that of zero is subtracted. -/
theorem accumulate_digit (q : Nat) (hd : d < 10) (digits : Text) :
    accumulate (UInt8.ofNat (d + 0x30) :: digits) (q : Int) =
      if 10 * q + d + 48 ≤ 2147483647 then accumulate digits ((10 * q + d : Nat) : Int) else none := by
  have hcode : ((UInt8.ofNat (d + 0x30)).toNat : Int) = (d : Int) + 48 := by
    rw [toNat_digit hd]
    omega
  by_cases hfits : 10 * q + d + 48 ≤ 2147483647
  · rw [if_pos hfits]
    have hnext : int32? ((q : Int) * 10 + (UInt8.ofNat (d + 0x30)).toNat - 0x30) =
        some ((10 * q + d : Nat) : Int) := by
      rw [show (q : Int) * 10 + (UInt8.ofNat (d + 0x30)).toNat - 0x30 = ((10 * q + d : Nat) : Int) by omega]
      exact int32?_of_le (by omega) (by omega)
    exact accumulate_cons (int32?_of_le (by omega) (by omega)) (int32?_of_le (by omega) (by omega)) hnext
  · rw [if_neg hfits]
    by_cases hsmall : (q : Int) * 10 ≤ 2147483647
    · exact accumulate_sum (int32?_of_le (by omega) hsmall) (int32?_of_gt (by omega))
    · exact accumulate_product (int32?_of_gt (by omega))

/-- **The digits add up to the number** as long as it stays away from the end of the range by the code
of a zero. -/
theorem outputDecimalDigits_spec {v : Nat} (hv : v < 18446744073709551616) :
    ∃ c digits, outputDecimalDigits v 21 (raiseDecimalMask v 20 1) = c :: digits ∧
      (∀ x ∈ c :: digits, isdigit x = true) ∧
      accumulate (c :: digits) 0 = if v + 48 ≤ 2147483647 then some (v : Int) else none := by
  have hdigits := forall_outputDecimalDigits (P := (isdigit · = true)) (fun _ => isdigit_ofNat) v 21
    (raiseDecimalMask v 20 1)
  obtain ⟨hne, hvalue⟩ : outputDecimalDigits v 21 (raiseDecimalMask v 20 1) ≠ [] ∧
      accumulate (outputDecimalDigits v 21 (raiseDecimalMask v 20 1)) (0 : Nat) =
        if v + 48 ≤ 2147483647 then some (v : Int) else none := by
    refine digits_induction (v := v) (motive := fun q digits => digits ≠ [] ∧
      accumulate digits (q : Int) = if v + 48 ≤ 2147483647 then some (v : Int) else none) ?last ?cons (by omega)
    case last =>
      intro q d hd hlast
      refine ⟨List.cons_ne_nil _ _, ?_⟩
      rw [accumulate_digit q hd, hlast]
      rfl
    case cons =>
      intro q d digits hd hle ih
      refine ⟨List.cons_ne_nil _ _, ?_⟩
      rw [accumulate_digit q hd, ih.2]
      split_ifs <;> first | rfl | omega
  obtain ⟨c, digits, hcs⟩ := List.exists_cons_of_ne_nil hne
  rw [hcs] at hdigits hvalue
  exact ⟨c, digits, hcs, hdigits, hvalue⟩

/-- The characters of a number: a sign and digits, which have its value or overflow. -/
theorem Number.output_spec (n : Number) {text : Text} (h : n.output = some text) :
    ∃ sign c digits, text = (if sign then [byte '-'] else []) ++ c :: digits ∧
      (∀ x ∈ c :: digits, isdigit x = true) ∧
      integerValue sign (c :: digits) = if n.toInt.natAbs + 48 ≤ 2147483647 then some n.toInt else none := by
  -- what is written for the absolute value
  have hdigits (v : Nat) (hv : v < 18446744073709551616) (sign : Bool) : ∃ c digits,
      outputAsDecimal v sign = (if sign then [byte '-'] else []) ++ c :: digits ∧
      (∀ x ∈ c :: digits, isdigit x = true) ∧
      integerValue sign (c :: digits) =
        if v + 48 ≤ 2147483647 then some (if sign then -(v : Int) else v) else none := by
    obtain ⟨c, digits, heq, hall, hvalue⟩ := outputDecimalDigits_spec hv
    refine ⟨c, digits, by rw [outputAsDecimal, heq], hall, ?_⟩
    rw [integerValue, hvalue]
    split
    case isTrue hfits =>
        cases sign with
        | false => rfl
        | true =>
            simp only [Option.bind_eq_bind, Option.bind_some, if_true]
            rw [int32?_of_le (by omega) (by omega), Int.mul_neg_one]
    case isFalse => rfl
  have hsigned (v : Int) (hv : -9223372036854775808 ≤ v ∧ v ≤ 9223372036854775807) (hout : outputSigned v = some text) :
      ∃ sign c digits, text = (if sign then [byte '-'] else []) ++ c :: digits ∧
        (∀ x ∈ c :: digits, isdigit x = true) ∧
        integerValue sign (c :: digits) = if v.natAbs + 48 ≤ 2147483647 then some v else none := by
    unfold outputSigned at hout
    split_ifs at hout with hneg hmin
    · cases hout
      obtain ⟨c, digits, heq, hall, hvalue⟩ := hdigits v.natAbs (by omega) true
      refine ⟨true, c, digits, heq, hall, ?_⟩
      rw [hvalue, if_pos rfl, show -(v.natAbs : Int) = v by omega]
    · cases hout
      obtain ⟨c, digits, heq, hall, hvalue⟩ := hdigits v.natAbs (by omega) false
      refine ⟨false, c, digits, heq, hall, ?_⟩
      rw [hvalue, if_neg Bool.false_ne_true, show (v.natAbs : Int) = v by omega]
  cases n with
  | int32 value =>
      have h₁ := value.le_toInt
      have h₂ := value.toInt_lt
      exact hsigned value.toInt (by omega) h
  | uint32 value =>
      have h₁ := value.toNat_lt
      cases h
      obtain ⟨c, digits, heq, hall, hvalue⟩ := hdigits value.toNat (by omega) false
      exact ⟨false, c, digits, heq, hall, hvalue⟩
  | int64 value =>
      have h₁ := value.le_toInt
      have h₂ := value.toInt_lt
      exact hsigned value.toInt (by omega) h

/-! ## The value of a token -/

theorem int32?_eq {w : Int} (h : int32? v = some w) : w = v ∧ -2147483648 ≤ v ∧ v ≤ 2147483647 := by
  unfold int32? at h
  split at h
  case isTrue hv => exact ⟨(Option.some.inj h).symm, hv⟩
  case isFalse => cases h

/-- Without an overflow the digits are added up as in the integers. -/
theorem foldl_of_accumulate {result : Int} (h : accumulate digits value = some result) :
    digits.foldl (fun value c => value * 10 + Int32.ofNat c.toNat - Int32.ofNat 0x30) (Int32.ofInt value) =
      Int32.ofInt result := by
  induction digits generalizing value with
  | nil =>
      cases h
      rfl
  | cons c digits ih =>
      simp only [accumulate, Option.bind_eq_bind, Option.bind_eq_some_iff] at h
      obtain ⟨product, hproduct, sum, hsum, next, hnext, hrest⟩ := h
      obtain ⟨rfl, -⟩ := int32?_eq hproduct
      obtain ⟨rfl, -⟩ := int32?_eq hsum
      obtain ⟨rfl, -⟩ := int32?_eq hnext
      have hstep : Int32.ofInt value * 10 + Int32.ofNat c.toNat - Int32.ofNat 0x30 =
          Int32.ofInt (value * 10 + c.toNat - 0x30) := by
        rw [Int32.ofInt_sub, Int32.ofInt_add, Int32.ofInt_mul, Int32.ofInt_eq_ofNat]
        rfl
      rw [List.foldl_cons, hstep]
      exact ih hrest

/-- The value of a token without an overflow. -/
theorem value_of_integerValue (h : integerValue sign digits = some value) :
    (if sign then digits.foldl
          (fun value c => value * 10 + Int32.ofNat c.toNat - Int32.ofNat 0x30) 0 * (-1)
        else digits.foldl (fun value c => value * 10 + Int32.ofNat c.toNat - Int32.ofNat 0x30) 0) =
      Int32.ofInt value := by
  unfold integerValue at h
  simp only [Option.bind_eq_bind, Option.bind_eq_some_iff] at h
  obtain ⟨result, hresult, hvalue⟩ := h
  have hfold := foldl_of_accumulate hresult
  rw [show (0 : Int32) = Int32.ofInt 0 from rfl, hfold]
  cases sign with
  | true =>
      obtain ⟨rfl, -⟩ := int32?_eq hvalue
      rw [if_pos rfl, Int32.ofInt_mul]
      rfl
  | false =>
      cases hvalue
      rfl

theorem takeWhile_isdigit {after : Text} (hdigits : ∀ x ∈ digits, isdigit x = true)
    (hafter : ∀ x ∈ after.head?, isdigit x = false) : (digits ++ after).takeWhile isdigit = digits := by
  rw [List.takeWhile_append_of_pos hdigits]
  cases after with
  | nil => simp
  | cons x after => simp [hafter x rfl]

namespace JsonTokenizer

variable {t : JsonTokenizer}

/-- A digit or a sign starts an integer. -/
theorem token_of_integer {text : Text}
    (h : t.rest.dropWhile isspace = c :: text) (hc : isdigit c = true ∨ c = byte '-') :
    t.token = some t.skipWhitespace.tryCreateIntegerToken := by
  have hrest : t.skipWhitespace.rest = c :: text := (rest_skipWhitespace t).trans h
  have hne {x : UInt8} (hx : isdigit x = false ∧ x ≠ byte '-') : c ≠ x := by
    rintro rfl
    rcases hc with hc | hc
    · rw [hx.1] at hc
      cases hc
    · exact hx.2 hc
  unfold token
  simp only [hrest]
  rw [if_neg (hne (by decide)), if_neg (hne (by decide)), if_neg (hne (by decide)), if_neg (hne (by decide)),
    if_neg (hne (by decide)), if_neg (hne (by decide)), if_neg (hne (by decide)), if_neg (hne (by decide)),
    if_pos hc]

/-- The token of a sign and digits, with what comes after them. -/
theorem token_integer {after : Text}
    (h : t.rest = (if sign then [byte '-'] else []) ++ c :: digits ++ after)
    (hdigits : ∀ x ∈ c :: digits, isdigit x = true) (hafter : ∀ x ∈ after.head?, isdigit x = false) :
    (∃ t', t.token = some (.integer (if sign then (c :: digits).foldl
          (fun value c => value * 10 + Int32.ofNat c.toNat - Int32.ofNat 0x30) 0 * (-1)
        else (c :: digits).foldl (fun value c => value * 10 + Int32.ofNat c.toNat - Int32.ofNat 0x30) 0), t') ∧
        t'.rest = after) ∧
      t.overflows = (integerValue sign (c :: digits)).isNone := by
  have hc := hdigits c List.mem_cons_self
  have htake := takeWhile_isdigit hdigits hafter
  have hminus : c ≠ byte '-' := by
    rintro rfl
    exact absurd hc (by decide)
  have hspace : isspace c = false := by
    unfold isdigit at hc
    unfold isspace
    simp only [Bool.and_eq_true, decide_eq_true_eq] at hc
    have h₁ : c ≠ 0x20 := by
      rintro rfl
      exact absurd hc.1 (by decide)
    have h₂ : ¬ c ≤ 0x0d := fun hle => absurd (UInt8.le_trans hc.1 hle) (by decide)
    simp [h₁, h₂]
  -- the character that the token starts with, and the text after it
  obtain ⟨x, text, hstart, hx⟩ : ∃ x text, t.rest.dropWhile isspace = x :: text ∧
      (isdigit x = true ∨ x = byte '-') := by
    cases sign with
    | true => exact ⟨byte '-', _, by rw [h]; rfl, .inr rfl⟩
    | false => exact ⟨c, digits ++ after, by rw [h]; simp [hspace], .inl hc⟩
  have hrest : t.skipWhitespace.rest = (if sign then [byte '-'] else []) ++ c :: digits ++ after := by
    rw [rest_skipWhitespace, h]
    cases sign with
    | true => rfl
    | false => simp [hspace]
  rw [token_of_integer hstart hx]
  generalize hu : t.skipWhitespace = u at hrest
  constructor
  · cases sign with
    | true =>
        have hhead : u.rest.head? == some (byte '-') := by rw [hrest]; rfl
        have hnext : (u.skip 1).rest = c :: digits ++ after := by rw [rest_skip, hrest]; rfl
        refine ⟨(u.skip 1).skip (c :: digits).length, ?_, by rw [rest_skip, hnext, List.drop_left]⟩
        rw [tryCreateIntegerToken]
        simp only [hhead, if_true, hnext, htake]
    | false =>
        have hhead : (u.rest.head? == some (byte '-')) = false := by
          rw [hrest]
          simpa using hminus
        have hnext : u.rest = c :: digits ++ after := hrest
        refine ⟨u.skip (c :: digits).length, ?_, by rw [rest_skip, hnext, List.drop_left]⟩
        rw [tryCreateIntegerToken]
        simp only [hhead, Bool.false_eq_true, if_false]
        rw [hnext, htake]
  · unfold overflows
    rw [hu, hrest]
    cases sign with
    | true => exact congrArg (fun digits => (integerValue true digits).isNone) htake
    | false =>
        have hfirst : (if c = byte '-' then (integerValue true ((digits ++ after).takeWhile isdigit)).isNone
            else isdigit c && (integerValue false ((c :: digits ++ after).takeWhile isdigit)).isNone) =
            (integerValue false (c :: digits)).isNone := by
          rw [if_neg hminus, hc, Bool.true_and, htake]
        exact hfirst

/-- Other tokens do not overflow. -/
theorem not_overflows (h : ∀ c ∈ (t.rest.dropWhile isspace).head?,
    isdigit c = false ∧ c ≠ byte '-') : t.overflows = false := by
  rw [← rest_skipWhitespace] at h
  unfold overflows
  cases hrest : t.skipWhitespace.rest with
  | nil => rfl
  | cons c text =>
      obtain ⟨hdigit, hminus⟩ := h c (by rw [hrest]; rfl)
      dsimp only
      rw [if_neg hminus, hdigit, Bool.false_and]

/-- The tokenizers of a run, from one of them to the end. -/
inductive Reads : JsonTokenizer → List JsonTokenizer → Prop
  | last {t t' : JsonTokenizer} (h : t.token = some (.ended, t')) : Reads t []
  | next {t t' : JsonTokenizer} {token : Token} {later : List JsonTokenizer}
      (h : t.token = some (token, t')) (hlater : Reads t' later) : Reads t (t' :: later)

theorem Reads.mem_of_token {u u' : JsonTokenizer} {later : List JsonTokenizer} {token : Token}
    (h : Reads t later) (hu : u ∈ t :: later) (htoken : u.token = some (token, u')) (hended : token ≠ .ended) :
    u' ∈ t :: later := by
  induction h with
  | last hlast =>
      rw [List.mem_singleton.mp hu, hlast] at htoken
      cases htoken
      exact absurd rfl hended
  | next hnext hlater ih =>
      rcases List.mem_cons.mp hu with rfl | hu
      · rw [hnext] at htoken
        cases htoken
        exact List.mem_cons_of_mem _ List.mem_cons_self
      · exact List.mem_cons_of_mem _ (ih hu)

theorem Reads.mem_of_reached {s : Text} {later : List JsonTokenizer}
    (h : Reads { objectString := s } later) (ht : Reached s t) :
    t ∈ ({ objectString := s } : JsonTokenizer) :: later := by
  induction ht with
  | start => exact List.mem_cons_self
  | next ht htoken hended herror ih =>
      rw [Reading.token_eq ht.inside.2] at htoken
      exact h.mem_of_token ih htoken hended

end JsonTokenizer

/-! ## The round trip -/

open JsonString

/-- Nothing of a tag needs an escape. -/
def Plain (tagName : Text) : Prop := quote ∉ tagName ∧ backslash ∉ tagName

/-- A number is not altered when it is read back: no `int32_t` overflows, and what is read is the number,
or an error where it is not an `int32_t`. -/
def NotAltered (tagName : Text) (n : Number) : Prop :=
  ∃ text, produced tagName n = some text ∧ (∀ t, Reached text t → t.overflows = false) ∧
    ∃ value error, JsonObject.getInteger text tagName = some (value, error) ∧
      ((value.toInt = n.toInt ∧ error = false) ∨ (error = true ∧ ∀ m, n ≠ .int32 m))

/-- The text of the object. -/
theorem produced_eq {tagName : Text} {n : Number} {text : Text} (h : produced tagName n = some text) :
    ∃ number, n.output = some number ∧
      text = 0x7b :: 0x20 :: quote :: (tagName ++ quote :: byte ':' :: (number ++ [0x20, 0x7d])) := by
  unfold produced JsonObjectFormatter.addNumber at h
  cases hnumber : n.output with
  | none =>
      rw [hnumber] at h
      cases h
  | some number =>
      rw [hnumber] at h
      cases h
      refine ⟨number, rfl, ?_⟩
      simp [JsonObjectFormatter.finish, Formatter.insertSeparation, JsonObjectFormatter.start]

section

variable {tagName number text : Text} (htag : Plain tagName)
  (htext : text = 0x7b :: 0x20 :: quote :: (tagName ++ quote :: byte ':' :: (number ++ [0x20, 0x7d])))
include htag htext

/-- The tokens up to the number: the brace, the key and the colon. -/
theorem tokens_before_number : ∃ t₁ t₂ t₃ : JsonTokenizer,
    JsonTokenizer.token { objectString := text } = some (.leftBrace 0, t₁) ∧
      t₁.token = some (.string tagName, t₂) ∧ t₂.token = some (.colon, t₃) ∧
      JsonTokenizer.overflows { objectString := text } = false ∧ t₁.overflows = false ∧
      t₂.overflows = false ∧ t₃.rest = number ++ [0x20, 0x7d] := by
  have hplain : ∀ y ∈ tagName, y ≠ quote ∧ y ≠ backslash :=
    fun y hy => ⟨fun hc => htag.1 (hc ▸ hy), fun hc => htag.2 (hc ▸ hy)⟩
  have hkey : stringPart (tagName ++ quote :: byte ':' :: (number ++ [0x20, 0x7d])) = some tagName := by
    rw [stringPart_append_plain hplain, stringPart_quote, Option.map_some, List.append_nil]
  have hrest : (JsonTokenizer.rest { objectString := text }).dropWhile isspace = text := by
    rw [htext]
    rfl
  obtain ⟨t₁, htoken, hrest₁⟩ := reads_of_cons (hrest.trans htext) (.inr (.inr (.inl ⟨rfl, rfl⟩)))
  have hstart : t₁.rest.dropWhile isspace =
      quote :: (tagName ++ quote :: byte ':' :: (number ++ [0x20, 0x7d])) := by
    rw [hrest₁]
    rfl
  obtain ⟨t₂, htoken₁, hrest₂⟩ := reads_string hstart hkey
  rw [← List.drop_drop, List.drop_left, List.drop_succ_cons, List.drop_zero] at hrest₂
  have hcolon : t₂.rest.dropWhile isspace = byte ':' :: (number ++ [0x20, 0x7d]) := by
    rw [hrest₂]
    rfl
  obtain ⟨t₃, htoken₂, hrest₃⟩ := reads_of_cons hcolon (.inl ⟨rfl, rfl⟩)
  refine ⟨t₁, t₂, t₃, ?_, htoken₁, htoken₂, not_overflows ?_, not_overflows ?_, not_overflows ?_, hrest₃⟩
  · rw [htoken, htext]
    rfl
  · rw [hrest, htext]
    rintro c ⟨⟩
    decide
  · rw [hstart]
    rintro c ⟨⟩
    decide
  · rw [hcolon]
    rintro c ⟨⟩
    decide

/-- **The object with one number**: whether a token overflows, and what `GetInteger` returns. -/
theorem getInteger_produced (hnumber : number = (if sign then [byte '-'] else []) ++ c :: digits)
    (hdigits : ∀ x ∈ c :: digits, isdigit x = true) :
    ((∀ t, Reached text t → t.overflows = false) ↔ (integerValue sign (c :: digits)).isNone = false) ∧
      JsonObject.getInteger text tagName = some (if sign then (c :: digits).foldl
          (fun value c => value * 10 + Int32.ofNat c.toNat - Int32.ofNat 0x30) 0 * (-1)
        else (c :: digits).foldl (fun value c => value * 10 + Int32.ofNat c.toNat - Int32.ofNat 0x30) 0,
        false) := by
  obtain ⟨t₁, t₂, t₃, htoken, htoken₁, htoken₂, hover, hover₁, hover₂, hrest₃⟩ :=
    tokens_before_number htag htext
  obtain ⟨⟨t₄, htoken₃, hrest₄⟩, hover₃⟩ := token_integer
    (hrest₃.trans (congrArg (· ++ [0x20, 0x7d]) hnumber)) hdigits (by rintro x ⟨⟩; decide)
  have hbrace : t₄.rest.dropWhile isspace = [0x7d] := by
    rw [hrest₄]
    rfl
  obtain ⟨t₅, htoken₄, hrest₅⟩ := reads_of_cons hbrace (.inr (.inr (.inr (.inl ⟨rfl, rfl⟩))))
  have htoken₅ : t₅.token = some (.ended, t₅.skipWhitespace) := by
    unfold JsonTokenizer.token
    simp only [rest_skipWhitespace, hrest₅, List.dropWhile_nil]
  have hreads := Reads.next htoken (.next htoken₁ (.next htoken₂ (.next htoken₃ (.next htoken₄ (.last htoken₅)))))
  constructor
  · constructor
    · intro hall
      have hnext {t t' : JsonTokenizer} {token : Token} (ht : Reached text t)
          (h : t.token = some (token, t')) (hended : token ≠ .ended) (herror : token ≠ .error) :
          Reached text t' :=
        ht.next ((Reading.token_eq ht.inside.2).trans h) hended herror
      have hreached := hnext (hnext (hnext .start htoken (by simp) (by simp)) htoken₁ (by simp) (by simp))
        htoken₂ (by simp) (by simp)
      rw [← hover₃]
      exact hall t₃ hreached
    · intro hvalue t ht
      have hover₄ : t₄.overflows = false := by
        apply not_overflows
        rw [hbrace]
        rintro c ⟨⟩
        decide
      have hover₅ : t₅.overflows = false := by
        apply not_overflows
        rw [hrest₅]
        rintro c ⟨⟩
      have hmem := hreads.mem_of_reached ht
      simp only [List.mem_cons, List.not_mem_nil, or_false] at hmem
      rcases hmem with rfl | rfl | rfl | rfl | rfl | rfl
      · exact hover
      · exact hover₁
      · exact hover₂
      · exact hover₃.trans hvalue
      · exact hover₄
      · exact hover₅
  · generalize (if sign then (c :: digits).foldl
          (fun value c => value * 10 + Int32.ofNat c.toNat - Int32.ofNat 0x30) 0 * (-1)
        else (c :: digits).foldl (fun value c => value * 10 + Int32.ofNat c.toNat - Int32.ofNat 0x30) 0) = value
      at htoken₃
    have hparse₀ : parseNextToken { tokenizer := { objectString := text } } =
        some { tokenizer := t₁, state := .readKeyOrEnd } := by
      rw [parseNextToken, htoken]
      rfl
    have hparse₁ : parseNextToken { tokenizer := t₁, state := .readKeyOrEnd } =
        some { tokenizer := t₂, state := .readColon, key := tagName } := by
      rw [parseNextToken, htoken₁]
      rfl
    have hparse₂ : parseNextToken
        { tokenizer := t₂, state := .readColon, key := tagName } =
        some { tokenizer := t₃, state := .readValue, key := tagName } := by
      rw [parseNextToken, htoken₂]
      rfl
    have hparse₃ : parseNextToken
        { tokenizer := t₃, state := .readValue, key := tagName } =
        some { tokenizer := t₄, state := .readCommaOrObjectEnd, key := tagName, value := .integer value } := by
      rw [parseNextToken, htoken₃]
      rfl
    have hfirst : JsonObject.first text =
        some { tokenizer := t₄, state := .readCommaOrObjectEnd, key := tagName, value := .integer value } := by
      rw [JsonObject.first, advance, advanceFor_of_parse hparse₀, if_pos (by simp),
        advanceFor_of_parse hparse₁, if_pos (by simp), advanceFor_of_parse hparse₂, if_pos (by simp),
        advanceFor_of_parse hparse₃, if_neg (fun hc => hc.1 rfl)]
    have hequal : JsonString.equal tagName tagName = some true := by
      have hplain := characters_append_plain (fun y (hy : y ∈ tagName) hc => htag.2 (hc ▸ hy)) []
      rw [List.append_nil, characters_nil, Option.map_some, List.append_nil] at hplain
      rw [equal_of_characters hplain]
      simp
    rw [JsonObject.getInteger, hfirst]
    simp [JsonObject.getIntegerFrom, hequal]

end

/-- **A number is not altered exactly when it stays away from the ends of the range of `int32_t` by the
code of a zero.** -/
theorem notAltered_iff {tagName : Text} (htag : Plain tagName) (n : Number) :
    NotAltered tagName n ↔ -2147483599 ≤ n.toInt ∧ n.toInt ≤ 2147483599 := by
  constructor
  · rintro ⟨text, hproduced, hall, -⟩
    obtain ⟨number, houtput, htext⟩ := produced_eq hproduced
    obtain ⟨sign, c, digits, hnumber, hdigits, hvalue⟩ := n.output_spec houtput
    have hsome := ((getInteger_produced htag htext hnumber hdigits).1).mp hall
    rw [hvalue] at hsome
    split at hsome
    · omega
    · cases hsome
  · intro hbounds
    obtain ⟨number, houtput⟩ : ∃ number, n.output = some number := by
      have hsigned (v : Int) (hv : -2147483599 ≤ v) : ∃ number, outputSigned v = some number := by
        unfold outputSigned
        split_ifs with hneg hmin
        · omega
        · exact ⟨_, rfl⟩
        · exact ⟨_, rfl⟩
      cases n with
      | int32 value => exact hsigned value.toInt hbounds.1
      | uint32 value => exact ⟨_, rfl⟩
      | int64 value => exact hsigned value.toInt hbounds.1
    have hproduced : ∃ text, produced tagName n = some text := by
      unfold produced JsonObjectFormatter.addNumber
      rw [houtput]
      exact ⟨_, rfl⟩
    obtain ⟨text, hproduced⟩ := hproduced
    obtain ⟨number', houtput', htext⟩ := produced_eq hproduced
    obtain rfl : number = number' := Option.some.inj (houtput.symm.trans houtput')
    obtain ⟨sign, c, digits, hnumber, hdigits, hvalue⟩ := n.output_spec houtput
    rw [if_pos (by omega)] at hvalue
    obtain ⟨hoverflow, hread⟩ := getInteger_produced htag htext hnumber hdigits
    refine ⟨text, hproduced, hoverflow.mpr (by rw [hvalue]; rfl), _, _, hread, .inl ⟨?_, rfl⟩⟩
    rw [value_of_integerValue hvalue]
    exact Int32.toInt_ofInt_of_le (by omega) (by omega)

/-- A number near the end of the range. -/
theorem notAltered_iff_large : NotAltered [byte 't'] (.int32 2147483599) := by
  have htag : Plain [byte 't'] := by
    unfold Plain
    decide
  exact (notAltered_iff htag (.int32 2147483599)).mpr (by decide)

/-- **The highest `int32_t`**: its last digit overflows, since the code of a zero is subtracted last. And
**a wider number**: a multiple of 2^32 is read back as zero, without an error. -/
theorem not_notAltered_highest :
    integerValue false (outputAsDecimal 2147483647 false) = none ∧
      ¬ NotAltered [byte 't'] (.int32 2147483647) ∧
      (produced [byte 't'] (.int64 4294967296)).bind (JsonObject.getInteger · [byte 't']) =
        some (0, false) ∧
      ¬ NotAltered [byte 't'] (.int64 4294967296) := by
  have htag : Plain [byte 't'] := by
    unfold Plain
    decide
  have hread : (produced [byte 't'] (.int64 4294967296)).bind (JsonObject.getInteger · [byte 't']) =
      some (0, false) := by decide
  refine ⟨by decide, ?_, hread, ?_⟩
  · rintro ⟨text, hproduced, hall, -⟩
    obtain ⟨number, houtput, htext⟩ := produced_eq hproduced
    obtain ⟨sign, c, digits, hnumber, hdigits, hvalue⟩ := (Number.int32 2147483647).output_spec houtput
    have hsome := ((getInteger_produced htag htext hnumber hdigits).1).mp hall
    rw [hvalue] at hsome
    revert hsome
    decide
  · rintro ⟨text, hproduced, -, value, error, hget, hsame | ⟨herror, -⟩⟩ <;>
      rw [hproduced, Option.bind_some, hget] at hread <;> cases hread
    · exact absurd hsame.1 (by decide)
    · cases herror

end EmbeddedInfra.Json
