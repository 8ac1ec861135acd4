import TacAnalysis.Json.Token

/-!
# Numbers that are written and read

A number is written in decimal digits without leading zeros, behind a minus sign if it is
negative. Such a word follows the grammar of numbers and denotes the number that was written.

Main statement: `wordValue?_toString`.
-/

namespace TacAnalysis.Json

/-! ## Digits -/

theorem digitChar_eq_zero : ∀ n < 10, n.digitChar = '0' → n = 0 := by
  decide

/-- The digits of a number begin with a zero only if the number is zero. -/
theorem exists_toDigits_eq_cons (n : Nat) :
    ∃ c rest, Nat.toDigits 10 n = c :: rest ∧ (c = '0' → n = 0) := by
  induction n using Nat.strongRecOn with
  | ind n ih =>
    rcases Nat.lt_or_ge n 10 with hlt | hge
    · exact ⟨n.digitChar, [], Nat.toDigits_of_lt_base hlt, digitChar_eq_zero n hlt⟩
    · obtain ⟨c, rest, hdigits, hzero⟩ := ih (n / 10) (by omega)
      refine ⟨c, rest ++ [(n % 10).digitChar], ?_, fun hc => ?_⟩
      · rw [Nat.toDigits_of_base_le (by decide) hge, hdigits, List.cons_append]
      · have := hzero hc
        omega

theorem isDigit_of_mem_toDigits {n : Nat} {c : Char} (h : c ∈ Nat.toDigits 10 n) :
    c.isDigit = true :=
  Nat.isDigit_of_mem_toDigits (by decide) (by decide) h

/-- The digits of a number denote it. -/
theorem digitsValue_toDigits (n : Nat) : digitsValue (Nat.toDigits 10 n) = n :=
  Nat.ofDigitChars_ten_toDigits

/-- Nothing is left behind a run of digits. -/
theorem dropWhile_isDigit {digits : List Char} (h : ∀ d ∈ digits, d.isDigit = true) :
    digits.dropWhile Char.isDigit = [] := by
  induction digits with
  | nil => rfl
  | cons d digits ih =>
    rw [List.dropWhile_cons_of_pos (h d List.mem_cons_self)]
    exact ih fun e he => h e (List.mem_cons_of_mem d he)

/-- The digits of a number are the whole part of a word. -/
theorem dropWhole?_toDigits (n : Nat) : dropWhole? (Nat.toDigits 10 n) = some [] := by
  obtain ⟨c, rest, hdigits, hzero⟩ := exists_toDigits_eq_cons n
  by_cases hc : c = '0'
  · rw [hzero hc]
    rfl
  · have hall : ∀ d ∈ c :: rest, d.isDigit = true := fun d hd =>
      isDigit_of_mem_toDigits (hdigits ▸ hd)
    rw [hdigits, dropWhole?.eq_2 _ (fun _ h => hc (List.cons.inj h).1), dropDigits?,
      if_pos (hall c List.mem_cons_self),
      dropWhile_isDigit fun d hd => hall d (List.mem_cons_of_mem c hd)]

/-- No digit is a minus sign. -/
theorem dropMinus_toDigits (n : Nat) : dropMinus (Nat.toDigits 10 n) = Nat.toDigits 10 n := by
  obtain ⟨c, rest, hdigits, -⟩ := exists_toDigits_eq_cons n
  have hc : c ≠ '-' := by
    rintro rfl
    have hdigit := isDigit_of_mem_toDigits (hdigits ▸ List.mem_cons_self : '-' ∈ Nat.toDigits 10 n)
    exact absurd hdigit (by decide)
  rw [hdigits, dropMinus.eq_2 _ (fun _ h => hc (List.cons.inj h).1)]

/-! ## Natural numbers -/

/-- The digits of a number follow the grammar of numbers. -/
theorem isNumber_toDigits (n : Nat) : isNumber (Nat.toDigits 10 n) = true := by
  rw [isNumber, dropMinus_toDigits, dropWhole?_toDigits]
  rfl

/-- The digits of a number denote it as a word. -/
theorem numberOf_toDigits (n : Nat) : numberOf (Nat.toDigits 10 n) = .int n := by
  obtain ⟨c, rest, hdigits, -⟩ := exists_toDigits_eq_cons n
  have hall : (Nat.toDigits 10 n).all Char.isDigit = true :=
    List.all_eq_true.2 fun d hd => isDigit_of_mem_toDigits hd
  have hminus : (Nat.toDigits 10 n).head? ≠ some '-' := by
    intro h
    exact absurd (isDigit_of_mem_toDigits (List.mem_of_head? h)) (by decide)
  have hword : Nat.toDigits 10 n ≠ ['-', '0'] := fun h => hminus (h ▸ rfl)
  rw [numberOf, dropMinus_toDigits, if_pos ⟨hall, hword⟩, if_neg hminus, digitsValue_toDigits]

/-! ## Integers -/

/-- An integer is written as the digits of a number, or as those of a positive number behind a
minus sign. -/
theorem toString_cases (n : Int) :
    (∃ m : Nat, n = m ∧ (toString n).toList = Nat.toDigits 10 m) ∨
      ∃ m : Nat, 0 < m ∧ n = -m ∧ (toString n).toList = '-' :: Nat.toDigits 10 m := by
  have hrepr : (toString n) = n.repr := rfl
  rw [hrepr, Int.repr_eq_if]
  split
  · exact .inl ⟨n.toNat, by omega, by rw [Nat.repr_eq_ofList_toDigits, String.toList_ofList]⟩
  · refine .inr ⟨(-n).toNat, by omega, by omega, ?_⟩
    rw [Nat.repr_eq_ofList_toDigits, String.toList_append, String.toList_ofList,
      String.toList_ofList]
    rfl

/-- The characters of an integer are digits and a minus sign. -/
theorem of_mem_toString {n : Int} {c : Char} (h : c ∈ (toString n).toList) :
    c = '-' ∨ c.isDigit = true := by
  rcases toString_cases n with ⟨m, -, hm⟩ | ⟨m, -, -, hm⟩
  · exact .inr (isDigit_of_mem_toDigits (hm ▸ h))
  · rcases List.mem_cons.1 (hm ▸ h) with hc | hc
    · exact .inl hc
    · exact .inr (isDigit_of_mem_toDigits hc)

/-- An integer follows the grammar of numbers. -/
theorem isNumber_toString (n : Int) : isNumber (toString n).toList = true := by
  rcases toString_cases n with ⟨m, -, hm⟩ | ⟨m, -, -, hm⟩
  · rw [hm, isNumber_toDigits]
  · rw [hm, isNumber, dropMinus, dropWhole?_toDigits]
    rfl

/-- An integer is denoted by what is written for it. -/
theorem numberOf_toString (n : Int) : numberOf (toString n).toList = .int n := by
  rcases toString_cases n with ⟨m, rfl, hm⟩ | ⟨m, hpos, rfl, hm⟩
  · rw [hm, numberOf_toDigits]
  · have hall : (Nat.toDigits 10 m).all Char.isDigit = true :=
      List.all_eq_true.2 fun d hd => isDigit_of_mem_toDigits hd
    have hword : '-' :: Nat.toDigits 10 m ≠ ['-', '0'] := by
      intro h
      have hzero := digitsValue_toDigits m
      rw [(List.cons.inj h).2] at hzero
      have : m = 0 := hzero.symm
      omega
    rw [hm, numberOf, dropMinus, if_pos ⟨hall, hword⟩, List.head?_cons, if_pos rfl,
      digitsValue_toDigits]

/-- A word that is an integer is read as the integer. -/
theorem wordValue?_toString (n : Int) : wordValue? (toString n).toList = some (.int n) := by
  have hword : ∀ c rest, (toString n).toList = c :: rest → c = '-' ∨ c.isDigit = true :=
    fun c rest h => of_mem_toString (h ▸ List.mem_cons_self)
  have hnull : (toString n).toList ≠ ['n', 'u', 'l', 'l'] := fun h =>
    absurd (hword _ _ h) (by decide)
  have htrue : (toString n).toList ≠ ['t', 'r', 'u', 'e'] := fun h =>
    absurd (hword _ _ h) (by decide)
  have hfalse : (toString n).toList ≠ ['f', 'a', 'l', 's', 'e'] := fun h =>
    absurd (hword _ _ h) (by decide)
  rw [wordValue?, if_neg hnull, if_neg htrue, if_neg hfalse, if_pos (isNumber_toString n),
    numberOf_toString]

end TacAnalysis.Json
