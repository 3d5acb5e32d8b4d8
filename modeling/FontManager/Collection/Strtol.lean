import FontManager.Collection.Text

namespace Text

def isSpace (c : Char) : Bool := c ∈ [' ', '\t', '\n', '\x0b', '\x0c', '\r']

structure Conversion where
  value : Int
  rest : Str
  inRange : Bool

def splitSign : Str → Bool × Str
  | '-' :: s => (true, s)
  | '+' :: s => (false, s)
  | s => (false, s)

def clampLong (longMax : Nat) (n : Int) : Int := max (-(longMax + 1 : Int)) (min longMax n)

def signed (negative : Bool) (digits : Str) : Int :=
  if negative then -(Nat.ofDigitChars 10 digits 0 : Int) else Nat.ofDigitChars 10 digits 0

def strtol (longMax : Nat) (s : Str) : Conversion :=
  let body := splitSign (s.dropWhile isSpace)
  let digits := body.2.takeWhile Char.isDigit
  if digits = [] then ⟨0, s, true⟩
  else
    let n := signed body.1 digits
    ⟨clampLong longMax n, body.2.dropWhile Char.isDigit, clampLong longMax n = n⟩

structure Digits (s : Str) (n : Nat) : Prop where
  nonempty : s ≠ []
  digits : ∀ c ∈ s, c.isDigit = true
  value : Nat.ofDigitChars 10 s 0 = n

inductive Signed : Str → Int → Prop
  | plain {s : Str} {n : Nat} (h : Digits s n) : Signed s n
  | plus {s : Str} {n : Nat} (h : Digits s n) : Signed ('+' :: s) n
  | minus {s : Str} {n : Nat} (h : Digits s n) : Signed ('-' :: s) (-n)

structure Numeral (s : Str) (n : Int) : Prop where
  parts : ∃ blanks body, s = blanks ++ body ∧ (∀ c ∈ blanks, isSpace c = true) ∧ Signed body n

section digits

variable {s : Str} {n : Nat}

theorem digits_decimal (n : Nat) : Digits (decimal n) n where
  nonempty h := Nat.toDigits_ne_nil h
  digits _ h := isDigit_of_mem_toDigits h
  value := Nat.ofDigitChars_ten_toDigits

theorem Digits.takeWhile (h : Digits s n) : s.takeWhile Char.isDigit = s :=
  List.takeWhile_eq_self_iff.mpr h.digits

theorem Digits.dropWhile (h : Digits s n) : s.dropWhile Char.isDigit = [] :=
  List.dropWhile_eq_nil_iff.mpr h.digits

theorem splitSign_of_digit {c : Char} (h : c.isDigit = true) (s : Str) :
    splitSign (c :: s) = (false, c :: s) := by
  have hminus : c ≠ '-' := by
    rintro rfl
    cases h
  have hplus : c ≠ '+' := by
    rintro rfl
    cases h
  unfold splitSign
  split
  · next heq => exact absurd (List.cons.inj heq).1 hminus
  · next heq => exact absurd (List.cons.inj heq).1 hplus
  · rfl

theorem isSpace_of_digit {c : Char} (h : c.isDigit = true) : isSpace c = false := by
  rw [isSpace, decide_eq_false_iff_not]
  intro hmem
  simp only [List.mem_cons, List.not_mem_nil, or_false] at hmem
  rcases hmem with rfl | rfl | rfl | rfl | rfl | rfl <;> cases h

end digits

section numerals

variable {s body : Str} {n : Int}

theorem Signed.split (h : Signed body n) :
    ∃ negative digits m, splitSign body = (negative, digits) ∧ Digits digits m ∧
      signed negative digits = n := by
  cases h with
  | plain h =>
    refine ⟨false, body, _, ?_, h, congrArg _ h.value⟩
    cases hb : body with
    | nil => exact absurd hb h.nonempty
    | cons c rest => exact splitSign_of_digit (h.digits c (hb ▸ List.mem_cons_self)) rest
  | plus h => exact ⟨false, _, _, rfl, h, congrArg _ h.value⟩
  | minus h => exact ⟨true, _, _, rfl, h, congrArg (fun m : Nat => -(m : Int)) h.value⟩

theorem signed_of_split {negative : Bool} {digits : Str} {m : Nat}
    (h : splitSign body = (negative, digits)) (hd : Digits digits m) :
    Signed body (signed negative digits) := by
  unfold splitSign at h
  split at h
  · obtain ⟨rfl, rfl⟩ := Prod.mk.inj h
    rw [signed, if_pos rfl, hd.value]
    exact .minus hd
  · obtain ⟨rfl, rfl⟩ := Prod.mk.inj h
    rw [signed, if_neg Bool.false_ne_true, hd.value]
    exact .plus hd
  · obtain ⟨rfl, rfl⟩ := Prod.mk.inj h
    rw [signed, if_neg Bool.false_ne_true, hd.value]
    exact .plain hd

theorem Signed.dropWhile (h : Signed body n) : body.dropWhile isSpace = body := by
  have stays : ∀ {c : Char} {rest : Str}, isSpace c = false →
      (c :: rest).dropWhile isSpace = c :: rest := fun hc =>
    List.dropWhile_cons_of_neg (Bool.eq_false_iff.mp hc)
  cases h with
  | plain h =>
    cases hb : body with
    | nil => exact absurd hb h.nonempty
    | cons c rest => exact stays (isSpace_of_digit (h.digits c (hb ▸ List.mem_cons_self)))
  | plus _ => exact stays rfl
  | minus _ => exact stays rfl

theorem strtol_numeral (longMax : Nat) (h : Numeral s n) :
    strtol longMax s = ⟨clampLong longMax n, [], clampLong longMax n = n⟩ := by
  obtain ⟨blanks, body, rfl, hblanks, hbody⟩ := h.parts
  obtain ⟨negative, digits, m, hsplit, hdigits, rfl⟩ := hbody.split
  have hdrop : (blanks ++ body).dropWhile isSpace = body := by
    rw [List.dropWhile_append_of_pos hblanks, hbody.dropWhile]
  rw [strtol, hdrop, hsplit]
  simp only [hdigits.takeWhile, hdigits.dropWhile, if_neg hdigits.nonempty]

theorem numeral_of_strtol {longMax : Nat} (hs : s ≠ []) (h : (strtol longMax s).rest = []) :
    ∃ n, Numeral s n ∧ (strtol longMax s).value = clampLong longMax n ∧
      (strtol longMax s).inRange = decide (clampLong longMax n = n) := by
  unfold strtol at h ⊢
  cases hsplit : splitSign (s.dropWhile isSpace) with
  | mk negative unsigned =>
    simp only [hsplit] at h ⊢
    split at h
    · exact absurd h hs
    · next hdigits =>
      rw [if_neg hdigits]
      have hall : ∀ c ∈ unsigned, c.isDigit = true := List.dropWhile_eq_nil_iff.mp h
      have hself : unsigned.takeWhile Char.isDigit = unsigned := List.takeWhile_eq_self_iff.mpr hall
      refine ⟨_, ⟨s.takeWhile isSpace, s.dropWhile isSpace, ?_, ?_, ?_⟩, rfl, rfl⟩
      · exact List.takeWhile_append_dropWhile.symm
      · exact fun c hc => List.mem_takeWhile_imp hc
      · rw [hself] at hdigits ⊢
        exact signed_of_split hsplit ⟨hdigits, hall, rfl⟩

theorem clampLong_eq_iff {longMax : Nat} {n : Int} :
    clampLong longMax n = n ↔ -(longMax + 1 : Int) ≤ n ∧ n ≤ longMax := by
  unfold clampLong
  omega

theorem Numeral.unique {m : Int} (h : Numeral s n) (h' : Numeral s m) : n = m := by
  have hn := strtol_numeral (n.natAbs + m.natAbs) h
  have hm := strtol_numeral (n.natAbs + m.natAbs) h'
  have hvalue := congrArg Conversion.value (hn.symm.trans hm)
  have hclampn : clampLong (n.natAbs + m.natAbs) n = n := clampLong_eq_iff.mpr (by omega)
  have hclampm : clampLong (n.natAbs + m.natAbs) m = m := clampLong_eq_iff.mpr (by omega)
  exact hclampn.symm.trans (hvalue.trans hclampm)

theorem Numeral.nonempty (h : Numeral s n) : s ≠ [] := by
  obtain ⟨blanks, body, rfl, -, hbody⟩ := h.parts
  intro hnil
  obtain ⟨-, rfl⟩ := List.append_eq_nil_iff.mp hnil
  cases hbody with
  | plain hdigits => exact hdigits.nonempty rfl

theorem numeral_decimal (n : Nat) : Numeral (decimal n) n :=
  ⟨[], decimal n, (List.nil_append _).symm, by simp, Signed.plain (digits_decimal n)⟩

end numerals

end Text
