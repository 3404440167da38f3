import EventServer.Common.Scan
import EventServer.Common.Strings

/-
  The argument `delay` of the server.

  `main` takes a string as a delay if `strtoul` comes to its end and the number fits `unsigned int`.
  That is more than the numbers up to UINT_MAX in decimal (`delayOf_decimal`): white space and a sign
  may stand in front, a number may be negative if it is small enough modulo 2^64, and without any
  argument text the delay is 0 (`delayOf_eq_some`).
-/

namespace EventServer

/-- What `endptr` points to after `strtoul(str, &endptr, 10)`: what comes after the digits, or all of
    the string if there are none. -/
def strtoulEnd (str : Bytes) : Bytes :=
  let (_, number) := splitSign (str.dropWhile isSpace)
  if number.takeWhile isDigit = [] then str else number.dropWhile isDigit

/-- The delay that an argument of `main` asks for. -/
def delayOf (arg : CString) : Option UInt32 :=
  let str := arg.bytes ++ [0]
  match strtoul str with
  | none => none
  | some delay => if (strtoulEnd str).head? ≠ some 0 ∨ 2 ^ 32 ≤ delay then none else some (.ofNat delay)

/-- White space, a sign or none, digits. -/
structure Spelled (bytes : Bytes) (neg : Bool) (digits : Bytes) : Prop where
  split : ∃ spaces sign, bytes = spaces ++ (sign ++ digits) ∧ (∀ ch ∈ spaces, isSpace ch = true) ∧
    (neg = true ∧ sign = [45] ∨ neg = false ∧ (sign = [43] ∨ sign = []))
  all : Digits digits
  ne_nil : digits ≠ []

/-- The number that `strtoul` makes of digits with a sign. -/
def signed (neg : Bool) (digits : Bytes) : ℕ :=
  if 2 ^ 64 ≤ digitsValue digits then 2 ^ 64 - 1
  else if neg then (2 ^ 64 - digitsValue digits) % 2 ^ 64 else digitsValue digits

/-! ## Signs -/

theorem plain_of_digit {d : UInt8} (hd : isDigit d = true) :
    isSpace d = false ∧ d ≠ 43 ∧ d ≠ 45 := by
  have hd := isDigit_iff.1 hd
  have hne : ∀ {ch : UInt8}, ch.toNat < 48 → d ≠ ch := fun hlt he => by
    subst he
    omega
  refine ⟨?_, hne (by decide), hne (by decide)⟩
  simp only [isSpace, Bool.or_eq_false_iff, Bool.and_eq_false_iff, decide_eq_false_iff_not,
    UInt8.le_iff_toNat_le]
  exact ⟨hne (by decide), Or.inr (by simp; omega)⟩

/-- A sign is split off. -/
theorem splitSign_split (str : Bytes) : ∃ sign, str = sign ++ (splitSign str).2 ∧
    ((splitSign str).1 = true ∧ sign = [45] ∨
      (splitSign str).1 = false ∧ (sign = [43] ∨ sign = [])) := by
  unfold splitSign
  split
  · exact ⟨[45], rfl, Or.inl ⟨rfl, rfl⟩⟩
  · exact ⟨[43], rfl, Or.inr ⟨rfl, Or.inl rfl⟩⟩
  · exact ⟨[], rfl, Or.inr ⟨rfl, Or.inr rfl⟩⟩

theorem splitSign_of_sign {neg : Bool} {sign rest : Bytes} {d : UInt8} (hd : isDigit d = true)
    (hsign : neg = true ∧ sign = [45] ∨ neg = false ∧ (sign = [43] ∨ sign = [])) :
    splitSign (sign ++ d :: rest) = (neg, d :: rest) := by
  obtain ⟨-, hplus, hminus⟩ := plain_of_digit hd
  obtain ⟨rfl, rfl⟩ | ⟨rfl, rfl | rfl⟩ := hsign
  · rfl
  · rfl
  · rw [List.nil_append, splitSign]
    · exact fun str heq => hminus (List.cons.inj heq).1
    · exact fun str heq => hplus (List.cons.inj heq).1

/-- A string is what stands before the first NUL. -/
theorem append_nul_inj {a b t : Bytes} (hb : 0 ∉ b) (h : a ++ 0 :: t = b ++ [0]) :
    a = b ∧ t = [] := by
  have hlen := congrArg List.length h
  rw [List.length_append, List.length_append, List.length_cons, List.length_singleton] at hlen
  have hle : b.length ≤ a.length := by
    by_contra hlt
    have hget : (a ++ 0 :: t)[a.length]? = some 0 := by simp
    rw [h, List.getElem?_append_left (by omega)] at hget
    exact hb (List.mem_of_getElem? hget)
  obtain ⟨heq, htail⟩ := List.append_inj h (by omega)
  exact ⟨heq, (List.cons.inj htail).2⟩

/-! ## What is accepted -/

/-- `strtoul` on a spelled number comes to the NUL. -/
theorem strtoul_spelled {bytes digits : Bytes} {neg : Bool} (h : Spelled bytes neg digits) :
    strtoul (bytes ++ [0]) = some (signed neg digits) ∧ strtoulEnd (bytes ++ [0]) = [0] := by
  obtain ⟨⟨spaces, sign, rfl, hspaces, hsign⟩, hdigits, hne⟩ := h
  obtain ⟨d, ds, rfl⟩ := List.exists_cons_of_ne_nil hne
  have hd := (digits_cons.1 hdigits).1
  have hnul : isDigit 0 = false := rfl
  have hdrop : ((spaces ++ (sign ++ d :: ds)) ++ [0]).dropWhile isSpace =
      sign ++ d :: (ds ++ [0]) := by
    have hfirst : (sign ++ d :: (ds ++ [0])).dropWhile isSpace = sign ++ d :: (ds ++ [0]) := by
      obtain ⟨-, rfl⟩ | ⟨-, rfl | rfl⟩ := hsign
      · rfl
      · rfl
      · exact List.dropWhile_cons_of_neg (by simp [(plain_of_digit hd).1])
    rw [List.append_assoc, List.append_assoc, List.cons_append,
      List.dropWhile_append_of_pos hspaces, hfirst]
  have htake := takeWhile_digits hdigits hnul []
  have hrest := dropWhile_digits hdigits hnul []
  rw [List.cons_append] at htake hrest
  constructor
  · unfold strtoul signed
    rw [hdrop, splitSign_of_sign hd hsign]
    dsimp only
    rw [if_neg (by simp [hnul]), htake]
  · unfold strtoulEnd
    rw [hdrop, splitSign_of_sign hd hsign]
    dsimp only
    rw [htake, if_neg hne, hrest]

/-- A string at whose end `strtoul` stops is empty or a spelled number. -/
theorem spelled_of_end {bytes : Bytes} (hbytes : 0 ∉ bytes)
    (h : (strtoulEnd (bytes ++ [0])).head? = some 0) :
    bytes = [] ∨ ∃ neg digits, Spelled bytes neg digits := by
  unfold strtoulEnd at h
  obtain ⟨sign, hsplit, hsign⟩ := splitSign_split ((bytes ++ [0]).dropWhile isSpace)
  generalize hnumber : splitSign ((bytes ++ [0]).dropWhile isSpace) = number at h hsplit hsign
  obtain ⟨neg, number⟩ := number
  dsimp only at h hsplit hsign
  split at h
  · left
    cases bytes with
    | nil => rfl
    | cons b bytes =>
      obtain rfl : b = 0 := Option.some.inj h
      exact absurd (List.mem_cons_self ..) hbytes
  · next hne =>
    right
    obtain ⟨tail, htail⟩ : ∃ tail, number.dropWhile isDigit = 0 :: tail := by
      cases hdrop : number.dropWhile isDigit with
      | nil =>
        rw [hdrop] at h
        cases h
      | cons ch tail =>
        rw [hdrop] at h
        exact ⟨tail, by rw [Option.some.inj h]⟩
    refine ⟨neg, number.takeWhile isDigit, ⟨(bytes ++ [0]).takeWhile isSpace, sign, ?_, ?_, hsign⟩,
      ?_, hne⟩
    · have hall : ((bytes ++ [0]).takeWhile isSpace ++ (sign ++ number.takeWhile isDigit)) ++
          0 :: tail = bytes ++ [0] := by
        rw [List.append_assoc, List.append_assoc, ← htail, List.takeWhile_append_dropWhile,
          ← hsplit, List.takeWhile_append_dropWhile]
      exact (append_nul_inj hbytes hall).1.symm
    · exact fun ch hch => List.mem_takeWhile_imp hch
    · exact fun ch hch => List.mem_takeWhile_imp hch

/-- **What `main` accepts as a delay**: the empty string, or a number as `strtoul` reads it that fits
    `unsigned int`. -/
theorem delayOf_eq_some {arg : CString} {delay : UInt32} : delayOf arg = some delay ↔
    arg.bytes = [] ∧ delay = 0 ∨
      ∃ neg digits, Spelled arg.bytes neg digits ∧ signed neg digits = delay.toNat := by
  have hempty (h : arg.bytes = []) : delayOf arg = some 0 := by
    unfold delayOf
    rw [h]
    decide
  have hspelled {neg : Bool} {digits : Bytes} (h : Spelled arg.bytes neg digits) : delayOf arg =
      if 2 ^ 32 ≤ signed neg digits then none else some (.ofNat (signed neg digits)) := by
    obtain ⟨hvalue, hend⟩ := strtoul_spelled h
    unfold delayOf
    simp only [hvalue, hend, List.head?_cons, ne_eq, not_true, false_or]
  constructor
  · intro h
    have hend : (strtoulEnd (arg.bytes ++ [0])).head? = some 0 := by
      unfold delayOf at h
      by_contra hne
      cases hvalue : strtoul (arg.bytes ++ [0]) <;> simp [hvalue, hne] at h
    obtain hnil | ⟨neg, digits, hsp⟩ := spelled_of_end arg.no_nul hend
    · rw [hempty hnil] at h
      exact Or.inl ⟨hnil, (Option.some.inj h).symm⟩
    · rw [hspelled hsp] at h
      split at h
      · cases h
      · next hlt =>
        refine Or.inr ⟨neg, digits, hsp, ?_⟩
        rw [← Option.some.inj h, UInt32.toNat_ofNat_of_lt' (Nat.lt_of_not_le hlt)]
  · rintro (⟨hnil, rfl⟩ | ⟨neg, digits, hsp, hvalue⟩)
    · exact hempty hnil
    · have hlt := delay.toNat_lt
      rw [hspelled hsp, hvalue, if_neg (by omega), UInt32.ofNat_toNat]

/-- A delay in decimal. -/
theorem delayOf_decimal {arg : CString} {delay : UInt32} (h : arg.bytes = decimal delay) :
    delayOf arg = some delay := by
  have hlt := delay.toNat_lt
  refine delayOf_eq_some.2 (Or.inr ⟨false, decimal delay, ⟨⟨[], [], h, List.forall_mem_nil _,
    Or.inr ⟨rfl, Or.inr rfl⟩⟩, decimal_digits delay, decimal_ne_nil delay⟩, ?_⟩)
  unfold signed
  rw [digitsValue_decimal, if_neg (by omega)]
  rfl

/-- 1 less than 2^64, with a minus. -/
example : delayOf ⟨ascii " -18446744073709551615", by decide +kernel⟩ = some 1 := by decide +kernel

end EventServer
