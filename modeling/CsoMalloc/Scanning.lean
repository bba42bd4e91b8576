import Mathlib

/-! Reading a text the way the conversions of `fscanf` do where `int`, `unsigned`
and `long` have 32 bits, and loops that read a text item by item. -/

namespace Scanning

def isSpace (c : Char) : Bool :=
  c == ' ' || c == '\t' || c == '\n' || c == '\x0b' || c == '\x0c' || c == '\r'

def skipSpace (text : List Char) : List Char := text.dropWhile isSpace

/-- `%s`: the next characters that are not white space. Where only white space
is left there are none, and `fscanf` returns `EOF`. -/
def scanString (text : List Char) : Option (List Char × List Char) :=
  match skipSpace text with
  | [] => none
  | c :: text => some (c :: text.takeWhile fun x => !isSpace x, text.dropWhile fun x => !isSpace x)

def scanSign : List Char → Bool × List Char
  | '-' :: text => (true, text)
  | '+' :: text => (false, text)
  | text => (false, text)

/-- A decimal number as `strtol` and `strtoul` take it: its sign, its magnitude
and the rest of the text. -/
def scanNumber (text : List Char) : Option (Bool × Nat × List Char) :=
  let signed := scanSign (skipSpace text)
  let digits := signed.2.takeWhile Char.isDigit
  if digits = [] then none
  else some (signed.1, Nat.ofDigitChars 10 digits 0, signed.2.dropWhile Char.isDigit)

/-- `%d`. A value out of range is replaced by the nearest bound. -/
def scanInt (text : List Char) : Option (Int × List Char) :=
  (scanNumber text).map fun (negative, n, rest) =>
    (if negative then max (-n) (-2 ^ 31) else min n (2 ^ 31 - 1), rest)

/-- `%u`. A minus sign negates modulo `2 ^ 32`; a magnitude out of range is
replaced by the largest value. -/
def scanUnsigned (text : List Char) : Option (Nat × List Char) :=
  (scanNumber text).map fun (negative, n, rest) =>
    (if 2 ^ 32 ≤ n then 2 ^ 32 - 1 else if negative then (2 ^ 32 - n) % 2 ^ 32 else n, rest)

theorem scanString_length {text token rest : List Char} (h : scanString text = some (token, rest)) :
    rest.length < text.length := by
  have hskip := List.length_dropWhile_le isSpace text
  rw [scanString] at h
  cases ht : skipSpace text with
  | nil => simp [ht] at h
  | cons c tail =>
    have hdrop := List.length_dropWhile_le (fun x => !isSpace x) tail
    rw [skipSpace] at ht
    simp only [skipSpace, ht, Option.some.injEq, Prod.mk.injEq] at h
    rw [ht, List.length_cons] at hskip
    rw [← h.2]
    omega

theorem scanSign_length (text : List Char) : (scanSign text).2.length ≤ text.length := by
  fun_cases scanSign text <;> simp

theorem scanNumber_length {text rest : List Char} {negative : Bool} {n : Nat}
    (h : scanNumber text = some (negative, n, rest)) : rest.length ≤ text.length := by
  have hskip := List.length_dropWhile_le isSpace text
  have hsign := scanSign_length (skipSpace text)
  have hdrop := List.length_dropWhile_le Char.isDigit (scanSign (skipSpace text)).2
  rw [scanNumber] at h
  split at h
  · exact absurd h (by simp)
  · simp only [Option.some.injEq, Prod.mk.injEq] at h
    rw [← h.2.2]
    exact hdrop.trans (hsign.trans hskip)

theorem scanInt_range {text rest : List Char} {i : Int} (h : scanInt text = some (i, rest)) :
    -2 ^ 31 ≤ i ∧ i < 2 ^ 31 := by
  obtain ⟨⟨negative, n, rest'⟩, _, he⟩ := Option.map_eq_some_iff.mp h
  obtain ⟨rfl, rfl⟩ := Prod.mk.inj he
  cases negative
  · simp only [Bool.false_eq_true, if_false]
    omega
  · simp only [if_true]
    omega

theorem scanUnsigned_lt {text rest : List Char} {i : Nat} (h : scanUnsigned text = some (i, rest)) :
    i < 2 ^ 32 := by
  obtain ⟨⟨negative, n, rest'⟩, _, he⟩ := Option.map_eq_some_iff.mp h
  obtain ⟨rfl, rfl⟩ := Prod.mk.inj he
  split_ifs <;> omega

theorem scanUnsigned_length {text rest : List Char} {i : Nat}
    (h : scanUnsigned text = some (i, rest)) : rest.length ≤ text.length := by
  obtain ⟨⟨negative, n, rest'⟩, hn, he⟩ := Option.map_eq_some_iff.mp h
  obtain ⟨_, rfl⟩ := Prod.mk.inj he
  exact scanNumber_length hn

section Tokens

variable {blanks token rest : List Char} {n : Nat}

theorem skipSpace_append (hb : ∀ c ∈ blanks, isSpace c) (ht : ∀ c ∈ token.head?, ¬ isSpace c) :
    skipSpace (blanks ++ token) = token := by
  rw [skipSpace, List.dropWhile_append_of_pos hb]
  cases token with
  | nil => rfl
  | cons c token => exact List.dropWhile_cons_of_neg (ht c rfl)

theorem scanString_token (hb : ∀ c ∈ blanks, isSpace c) (hne : token ≠ [])
    (ht : ∀ c ∈ token, ¬ isSpace c) (hr : ∀ c ∈ rest.head?, isSpace c) :
    scanString (blanks ++ (token ++ rest)) = some (token, rest) := by
  cases token with
  | nil => exact absurd rfl hne
  | cons c token =>
    have hskip : skipSpace (blanks ++ (c :: token ++ rest)) = c :: (token ++ rest) :=
      skipSpace_append hb (by simpa using ht c List.mem_cons_self)
    have hin : ∀ x ∈ token, (!isSpace x) = true := fun x hx => by
      simpa using ht x (List.mem_cons_of_mem c hx)
    have htake : (rest.takeWhile fun x => !isSpace x) = [] := by
      cases rest with
      | nil => rfl
      | cons d rest => exact List.takeWhile_cons_of_neg (by simpa using hr d rfl)
    have hdrop : (rest.dropWhile fun x => !isSpace x) = rest := by
      cases rest with
      | nil => rfl
      | cons d rest => exact List.dropWhile_cons_of_neg (by simpa using hr d rfl)
    rw [scanString, hskip]
    simp only [List.takeWhile_append_of_pos hin, htake, List.dropWhile_append_of_pos hin, hdrop,
      List.append_nil]

theorem not_isSpace_of_isDigit {c : Char} (h : c.isDigit) : ¬ isSpace c := by
  intro hs
  simp only [isSpace, Bool.or_eq_true, beq_iff_eq] at hs
  rcases hs with ((((rfl | rfl) | rfl) | rfl) | rfl) | rfl <;> exact absurd h (by decide)

theorem scanSign_digit {c : Char} {text : List Char} (h : c.isDigit) :
    scanSign (c :: text) = (false, c :: text) := by
  unfold scanSign
  split
  · next he => exact absurd h (by rw [(List.cons.inj he).1]; decide)
  · next he => exact absurd h (by rw [(List.cons.inj he).1]; decide)
  · rfl

theorem isDigit_of_mem_toDigits {c : Char} (h : c ∈ Nat.toDigits 10 n) : c.isDigit :=
  Nat.isDigit_of_mem_toDigits (by decide) (by decide) h

theorem skipSpace_toDigits (hb : ∀ c ∈ blanks, isSpace c) :
    skipSpace (blanks ++ (Nat.toDigits 10 n ++ rest)) = Nat.toDigits 10 n ++ rest := by
  refine skipSpace_append hb fun c hc => not_isSpace_of_isDigit (isDigit_of_mem_toDigits (n := n) ?_)
  rw [List.head?_append_of_ne_nil _ Nat.toDigits_ne_nil] at hc
  exact List.mem_of_mem_head? hc

theorem scanSign_toDigits :
    scanSign (Nat.toDigits 10 n ++ rest) = (false, Nat.toDigits 10 n ++ rest) := by
  cases hd : Nat.toDigits 10 n with
  | nil => exact absurd hd Nat.toDigits_ne_nil
  | cons c ds => exact scanSign_digit (isDigit_of_mem_toDigits (hd ▸ List.mem_cons_self))

/-- The digits of a number that was written in decimal, and what is behind them. -/
theorem span_toDigits (hr : ∀ c ∈ rest.head?, ¬ c.isDigit) :
    (Nat.toDigits 10 n ++ rest).takeWhile Char.isDigit = Nat.toDigits 10 n ∧
      (Nat.toDigits 10 n ++ rest).dropWhile Char.isDigit = rest := by
  have hdigit : ∀ c ∈ Nat.toDigits 10 n, c.isDigit := fun _ => isDigit_of_mem_toDigits
  rw [List.takeWhile_append_of_pos hdigit, List.dropWhile_append_of_pos hdigit]
  cases rest with
  | nil => simp
  | cons d rest =>
    have hd : ¬ d.isDigit := hr d rfl
    rw [List.takeWhile_cons_of_neg hd, List.dropWhile_cons_of_neg hd, List.append_nil]
    exact ⟨rfl, rfl⟩

theorem scanNumber_toDigits (hb : ∀ c ∈ blanks, isSpace c) (hr : ∀ c ∈ rest.head?, ¬ c.isDigit) :
    scanNumber (blanks ++ (Nat.toDigits 10 n ++ rest)) = some (false, n, rest) := by
  rw [scanNumber, skipSpace_toDigits hb, scanSign_toDigits]
  simp only [span_toDigits hr, Nat.toDigits_ne_nil, if_false, Nat.ofDigitChars_ten_toDigits]

theorem scanUnsigned_toDigits (hb : ∀ c ∈ blanks, isSpace c) (hr : ∀ c ∈ rest.head?, ¬ c.isDigit)
    (hn : n < 2 ^ 32) :
    scanUnsigned (blanks ++ (Nat.toDigits 10 n ++ rest)) = some (n, rest) := by
  rw [scanUnsigned, scanNumber_toDigits hb hr, Option.map_some]
  simp only [Nat.not_le.mpr hn, Bool.false_eq_true, if_false]

/-- The decimal form of a signed number. -/
def decimal (i : Int) : List Char :=
  if i < 0 then '-' :: Nat.toDigits 10 i.natAbs else Nat.toDigits 10 i.natAbs

theorem scanNumber_decimal {i : Int} (hb : ∀ c ∈ blanks, isSpace c)
    (hr : ∀ c ∈ rest.head?, ¬ c.isDigit) :
    scanNumber (blanks ++ (decimal i ++ rest)) = some (decide (i < 0), i.natAbs, rest) := by
  rw [decimal]
  by_cases hi : i < 0
  · have hskip : skipSpace (blanks ++ ('-' :: (Nat.toDigits 10 i.natAbs ++ rest))) =
        '-' :: (Nat.toDigits 10 i.natAbs ++ rest) := skipSpace_append hb (by simp [isSpace])
    rw [if_pos hi, List.cons_append, scanNumber, hskip, decide_eq_true hi]
    simp only [scanSign, span_toDigits hr, Nat.toDigits_ne_nil, if_false,
      Nat.ofDigitChars_ten_toDigits]
  · rw [if_neg hi, scanNumber_toDigits hb hr, decide_eq_false hi]

theorem scanInt_decimal {i : Int} (hb : ∀ c ∈ blanks, isSpace c)
    (hr : ∀ c ∈ rest.head?, ¬ c.isDigit) (hi : -2 ^ 31 ≤ i ∧ i < 2 ^ 31) :
    scanInt (blanks ++ (decimal i ++ rest)) = some (i, rest) := by
  rw [scanInt, scanNumber_decimal hb hr, Option.map_some]
  by_cases hneg : i < 0
  · simp only [hneg, decide_true, if_true, Option.some.injEq, Prod.mk.injEq, and_true]
    omega
  · simp only [hneg, decide_false, Bool.false_eq_true, if_false, Option.some.injEq, Prod.mk.injEq,
      and_true]
    omega

end Tokens

section Items

variable {ε α σ : Type*} {next : List Char → Except ε (α × List Char)}

/-- Every item that `next` yields takes at least one character. -/
def Progresses (next : List Char → Except ε (α × List Char)) : Prop :=
  ∀ text a rest, next text = .ok (a, rest) → rest.length < text.length

/-- The items of a text up to where `next` stops, and why it stops there. -/
def items (hp : Progresses next) (text : List Char) : List α × ε :=
  match h : next text with
  | .error e => ([], e)
  | .ok (a, rest) =>
    have := hp text a rest h
    ((a :: (items hp rest).1), (items hp rest).2)
termination_by text.length

/-- A loop that reads an item and updates its state until `next` stops. -/
def loop (hp : Progresses next) (step : σ → α → σ) (text : List Char) (s : σ) : σ × ε :=
  match h : next text with
  | .error e => (s, e)
  | .ok (a, rest) =>
    have := hp text a rest h
    loop hp step rest (step s a)
termination_by text.length

variable {hp : Progresses next} {step : σ → α → σ} {text rest : List Char}

theorem items_error {e : ε} (h : next text = .error e) : items hp text = ([], e) := by
  rw [items]
  split <;> simp_all

theorem items_ok {a : α} (h : next text = .ok (a, rest)) :
    items hp text = (a :: (items hp rest).1, (items hp rest).2) := by
  rw [items]
  split <;> simp_all

theorem loop_eq (text : List Char) (s : σ) :
    loop hp step text s = ((items hp text).1.foldl step s, (items hp text).2) := by
  fun_induction loop hp step text s with
  | case1 text s e h => rw [items_error h, List.foldl_nil]
  | case2 text s a rest h _ ih => rw [ih, items_ok h, List.foldl_cons]

theorem items_forall {p : α → Prop} (h : ∀ text a rest, next text = .ok (a, rest) → p a)
    (text : List Char) : ∀ a ∈ (items hp text).1, p a := by
  fun_induction items hp text with
  | case1 text e he => simp
  | case2 text a rest he _ ih =>
    intro b hb
    rcases List.mem_cons.mp hb with rfl | hb
    · exact h _ _ _ he
    · exact ih b hb

end Items

end Scanning
