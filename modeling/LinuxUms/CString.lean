import Mathlib.Algebra.Order.Ring.Int
import Mathlib.Data.List.TakeWhile
import Mathlib.Logic.Function.Basic

namespace CString

/-- The character that ends a string. -/
def nul : Char := Char.ofNat 0

/-- Memory for `n` characters. -/
structure Buffer (n : ℕ) where
  chars : List Char
  size : chars.length = n

/-- What stands before the first separator. -/
theorem takeWhile_append_cons (a : Char) (xs ys : List Char) (hxs : a ∉ xs) :
    (xs ++ a :: ys).takeWhile (· ≠ a) = xs := by
  rw [List.takeWhile_append_of_pos]
  · simp
  · intro c hc
    have hne : c ≠ a := fun he => hxs (he ▸ hc)
    simpa using hne

/-- An allocation: there may be no memory, and what there is holds anything. -/
abbrev Kmalloc := (n : ℕ) → Option (Buffer n)

namespace Buffer

variable {n : ℕ}

/-- The string in a buffer, which ends before the first terminator. -/
def text (b : Buffer n) : List Char := b.chars.takeWhile (· ≠ nul)

/-- `xs` is written from position `k` on, unless that goes past the end. -/
def write (b : Buffer n) (k : ℕ) (xs : List Char) : Option (Buffer n) :=
  if h : k + xs.length ≤ n then
    some ⟨b.chars.take k ++ xs ++ b.chars.drop (k + xs.length), by
      have hb := b.size
      simp only [List.length_append, List.length_take, List.length_drop]
      omega⟩
  else none

def strcpy (b : Buffer n) (xs : List Char) : Option (Buffer n) := b.write 0 (xs ++ [nul])

def strcat (b : Buffer n) (xs : List Char) : Option (Buffer n) :=
  b.write b.text.length (xs ++ [nul])

/-- What `snprintf` leaves of the output `xs` in a buffer of the given size. -/
def snprintf (b : Buffer (n + 1)) (xs : List Char) : Buffer (n + 1) where
  chars := xs.take n ++ nul :: b.chars.drop ((xs.take n).length + 1)
  size := by
    have hb := b.size
    simp only [List.length_append, List.length_cons, List.length_take, List.length_drop]
    omega

theorem text_of_chars (b : Buffer n) (xs ys : List Char) (hxs : nul ∉ xs)
    (h : b.chars = xs ++ nul :: ys) : b.text = xs := by
  rw [text, h, takeWhile_append_cons nul xs ys hxs]

theorem nul_notMem_text (b : Buffer n) : nul ∉ b.text := by
  intro h
  have hne := List.mem_takeWhile_imp h
  simp at hne

/-- A string that ends inside its buffer is followed by a terminator. -/
theorem chars_of_text (b : Buffer n) (h : b.text.length < n) :
    ∃ ys, b.chars = b.text ++ nul :: ys := by
  have hsplit : b.chars = b.text ++ b.chars.dropWhile (· ≠ nul) := by
    rw [text, List.takeWhile_append_dropWhile]
  cases hd : b.chars.dropWhile (· ≠ nul) with
  | nil =>
    rw [hd, List.append_nil] at hsplit
    have hlen := congrArg List.length hsplit
    rw [b.size] at hlen
    omega
  | cons c ys =>
    have hc : c = nul := by
      have hne : b.chars.dropWhile (· ≠ nul) ≠ [] := by rw [hd]; exact List.cons_ne_nil c ys
      have hhead := List.head_dropWhile_not (· ≠ nul) hne
      simp only [hd, List.head_cons] at hhead
      simpa using hhead
    exact ⟨ys, by rw [hsplit, hd, hc]⟩

/-- A string with its terminator fills the buffer. -/
theorem chars_of_full (b : Buffer n) (h : b.text.length + 1 = n) : b.chars = b.text ++ [nul] := by
  obtain ⟨ys, hys⟩ := b.chars_of_text (by omega)
  have hlen := congrArg List.length hys
  rw [b.size, List.length_append, List.length_cons] at hlen
  have hnil : ys = [] := List.length_eq_zero_iff.mp (by omega)
  rw [hys, hnil]

theorem strcpy_some (b : Buffer n) (xs : List Char) (hxs : nul ∉ xs) (h : xs.length < n) :
    ∃ b', b.strcpy xs = some b' ∧ b'.text = xs := by
  have hle : 0 + (xs ++ [nul]).length ≤ n := by
    simp only [List.length_append, List.length_singleton]
    omega
  refine ⟨_, dif_pos hle, text_of_chars _ xs (b.chars.drop (xs.length + 1)) hxs ?_⟩
  simp

theorem strcat_some (b : Buffer n) (xs : List Char) (hxs : nul ∉ xs)
    (h : b.text.length + xs.length < n) :
    ∃ b', b.strcat xs = some b' ∧ b'.text = b.text ++ xs := by
  have hle : b.text.length + (xs ++ [nul]).length ≤ n := by
    simp only [List.length_append, List.length_singleton]
    omega
  obtain ⟨ys, hys⟩ := b.chars_of_text (by omega)
  have htake : b.chars.take b.text.length = b.text := by
    rw [hys, List.take_left]
  refine ⟨_, dif_pos hle, text_of_chars _ (b.text ++ xs)
    (b.chars.drop (b.text.length + (xs.length + 1))) ?_ ?_⟩
  · exact List.not_mem_append b.nul_notMem_text hxs
  · dsimp only
    rw [htake]
    simp

/-- `snprintf` cuts its output off. -/
theorem snprintf_text (b : Buffer (n + 1)) (xs : List Char) (hxs : nul ∉ xs) :
    (b.snprintf xs).text = xs.take n :=
  text_of_chars _ _ _ (fun h => hxs (List.mem_of_mem_take h)) rfl

theorem snprintf_text_of_le (b : Buffer (n + 1)) (xs : List Char) (hxs : nul ∉ xs)
    (h : xs.length ≤ n) : (b.snprintf xs).text = xs := by
  rw [snprintf_text b xs hxs, List.take_of_length_le h]

end Buffer

/-- The output of `%d`. -/
def decimal (i : ℤ) : List Char :=
  if i < 0 then '-' :: Nat.toDigits 10 i.natAbs else Nat.toDigits 10 i.natAbs

theorem toDigits_injective : Function.Injective (Nat.toDigits 10) :=
  Function.LeftInverse.injective fun n => Nat.ofDigitChars_toDigits (b := 10) (n := n)
    (by decide) (by decide)

theorem mem_decimal (i : ℤ) (c : Char) (hc : c ∈ decimal i) : c = '-' ∨ c.isDigit = true := by
  have hdigit (n : ℕ) (h : c ∈ Nat.toDigits 10 n) : c.isDigit = true :=
    Nat.isDigit_of_mem_toDigits (by decide) (by decide) h
  unfold decimal at hc
  split at hc
  · exact (List.mem_cons.mp hc).imp id (hdigit _)
  · exact Or.inr (hdigit _ hc)

theorem nul_notMem_decimal (i : ℤ) : nul ∉ decimal i := by
  intro h
  rcases mem_decimal i nul h with h | h <;> revert h <;> decide

theorem decimal_injective : Function.Injective decimal := by
  intro i j h
  -- a sign is not a digit
  have hsign (m n : ℕ) : '-' :: Nat.toDigits 10 m ≠ Nat.toDigits 10 n := by
    intro he
    have hmem : '-' ∈ Nat.toDigits 10 n := he ▸ List.mem_cons_self
    have hdigit := Nat.isDigit_of_mem_toDigits (by decide) (by decide) hmem
    revert hdigit
    decide
  unfold decimal at h
  split at h <;> split at h
  · have habs := toDigits_injective (List.cons.inj h).2
    omega
  · exact absurd h (hsign _ _)
  · exact absurd h.symm (hsign _ _)
  · have habs := toDigits_injective h
    omega

theorem length_decimal_le (i : ℤ) (k : ℕ) (hk : 0 < k) (hlo : -10 ^ k < i)
    (hhi : i < 10 ^ (k + 1)) : (decimal i).length ≤ k + 1 := by
  have hpow (m : ℕ) : ((10 ^ m : ℕ) : ℤ) = 10 ^ m := by norm_cast
  unfold decimal
  split
  · have habs : i.natAbs < 10 ^ k := by
      have := hpow k
      omega
    simpa using (Nat.length_toDigits_le_iff (by decide) hk).mpr habs
  · refine (Nat.length_toDigits_le_iff (by decide) (Nat.succ_pos k)).mpr ?_
    have := hpow (k + 1)
    omega

/-- A signed number of 32 bits has at most ten digits and a sign. -/
theorem length_decimal_toInt (x : BitVec 32) : (decimal x.toInt).length ≤ 11 := by
  have hlo : -10 ^ 10 < x.toInt := lt_of_lt_of_le (by decide) x.le_toInt
  have hhi : x.toInt < 10 ^ 11 := lt_of_lt_of_le x.toInt_lt (by decide)
  exact length_decimal_le x.toInt 10 (by decide) hlo hhi

end CString
