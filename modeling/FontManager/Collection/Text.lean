import Mathlib.Data.List.Basic
import Mathlib.Data.List.Infix
import Mathlib.Data.List.TakeWhile

abbrev Str := List Char

namespace Text

def afterLast (c : Char) (s : Str) : Str := (s.reverse.takeWhile (· ≠ c)).reverse

def uptoLast (c : Char) (s : Str) : Str := (s.reverse.dropWhile (· ≠ c)).reverse

theorem uptoLast_append_afterLast (c : Char) (s : Str) :
    uptoLast c s ++ afterLast c s = s := by
  rw [uptoLast, afterLast, ← List.reverse_append, List.takeWhile_append_dropWhile,
    List.reverse_reverse]

theorem not_mem_afterLast (c : Char) (s : Str) : c ∉ afterLast c s := by
  intro h
  have hc := List.mem_takeWhile_imp (List.mem_reverse.mp h)
  simp at hc

theorem afterLast_of_not_mem {c : Char} {s : Str} (h : c ∉ s) : afterLast c s = s := by
  have hall : ∀ x ∈ s.reverse, decide (x ≠ c) = true := by
    intro x hx
    simpa using fun he : x = c => h (he ▸ List.mem_reverse.mp hx)
  rw [afterLast, List.takeWhile_eq_self_iff.mpr hall, List.reverse_reverse]

theorem reverse_append_cons (c : Char) (a b : Str) :
    (a ++ c :: b).reverse = b.reverse ++ c :: a.reverse := by simp

theorem afterLast_append {c : Char} (a : Str) {b : Str} (h : c ∉ b) :
    afterLast c (a ++ c :: b) = b := by
  have hb : ∀ x ∈ b.reverse, decide (x ≠ c) = true := by
    intro x hx
    simpa using fun he : x = c => h (he ▸ List.mem_reverse.mp hx)
  rw [afterLast, reverse_append_cons, List.takeWhile_append_of_pos hb]
  simp

theorem uptoLast_append {c : Char} (a : Str) {b : Str} (h : c ∉ b) :
    uptoLast c (a ++ c :: b) = a ++ [c] := by
  have hs := uptoLast_append_afterLast c (a ++ c :: b)
  rw [afterLast_append a h] at hs
  have ht : uptoLast c (a ++ c :: b) ++ b = (a ++ [c]) ++ b := by simpa using hs
  exact List.append_cancel_right ht

def decimal : Int → Str
  | .ofNat n => Nat.toDigits 10 n
  | .negSucc n => '-' :: Nat.toDigits 10 (n + 1)

theorem toDigits_injective {m n : Nat} (h : Nat.toDigits 10 m = Nat.toDigits 10 n) : m = n := by
  rw [← Nat.ofDigitChars_ten_toDigits (n := m), h, Nat.ofDigitChars_ten_toDigits]

theorem isDigit_of_mem_toDigits {n : Nat} {c : Char} (h : c ∈ Nat.toDigits 10 n) :
    c.isDigit = true :=
  Nat.isDigit_of_mem_toDigits (by decide) (by decide) h

theorem mem_decimal {n : Int} {c : Char} (h : c ∈ decimal n) : c = '-' ∨ c.isDigit = true := by
  cases n with
  | ofNat n => exact Or.inr (isDigit_of_mem_toDigits h)
  | negSucc n =>
    rcases List.mem_cons.mp h with rfl | h
    · exact Or.inl rfl
    · exact Or.inr (isDigit_of_mem_toDigits h)

theorem not_mem_decimal {c : Char} (h : c ≠ '-') (hd : c.isDigit = false) (n : Int) :
    c ∉ decimal n := by
  intro hm
  rcases mem_decimal hm with h' | h'
  · exact h h'
  · simp [hd] at h'

theorem decimal_injective {m n : Int} (h : decimal m = decimal n) : m = n := by
  have minus : ∀ k : Nat, '-' ∉ Nat.toDigits 10 k := fun k hk => by
    simpa using isDigit_of_mem_toDigits hk
  cases m with
  | ofNat m =>
    cases n with
    | ofNat n => rw [toDigits_injective h]
    | negSucc n =>
      have h' : Nat.toDigits 10 m = '-' :: Nat.toDigits 10 (n + 1) := h
      exact absurd (h' ▸ List.mem_cons_self) (minus m)
  | negSucc m =>
    cases n with
    | ofNat n =>
      have h' : '-' :: Nat.toDigits 10 (m + 1) = Nat.toDigits 10 n := h
      exact absurd (h' ▸ List.mem_cons_self) (minus n)
    | negSucc n =>
      have hmn := toDigits_injective (List.cons_eq_cons.mp h).2
      rw [Nat.succ_injective hmn]

def cStr (s : Str) : Str := s.takeWhile (· ≠ '\x00')

def NulFree (s : Str) : Prop := '\x00' ∉ s

instance (s : Str) : Decidable (NulFree s) := inferInstanceAs (Decidable (_ ∉ _))

theorem cStr_nulFree (s : Str) : NulFree (cStr s) := by
  intro h
  have hc := List.mem_takeWhile_imp h
  simp at hc

@[simp] theorem cStr_of_nulFree {s : Str} (h : NulFree s) : cStr s = s :=
  List.takeWhile_eq_self_iff.mpr fun x hx => by
    simpa using fun he : x = '\x00' => h (he ▸ hx)

end Text
