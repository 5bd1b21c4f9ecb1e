import PegGrammar.Proofs.UniqueReading
import PegGrammar.Text.Quoted

/-!
# Numbers and quoted texts can be read in one way only

Dumps and messages show numbers in decimal and texts between quotation marks. Both are read from
left to right, like the words of a printed grammar: a number ends where there is no digit, and a
quoted text ends with its mark, which inside it never stands without a backslash in front.

## What the table of characters is needed for

Nothing: a character that is shown as itself and one that is shown as its code point are told apart
by the backslash, so no lemma here asks which characters are shown as what. All that counts is that
the mark, the backslash and the characters with a letter of their own are taken care of before the
table is looked at.

## Main results

* `toDigits_sixteen_injective`, `toString_append_inj` — reading a number
* `Text.escapeChar_append_inj`, `Text.quoteText_append_inj` — reading a character, a quoted text
-/

namespace PegGrammar

variable {r s : List Char}

/-! ### Numbers -/

theorem toDigits_sixteen_injective {m n : Nat} (h : Nat.toDigits 16 m = Nat.toDigits 16 n) :
    m = n := by
  have hdigit : ∀ i < 16, ∀ j < 16, Nat.digitChar i = Nat.digitChar j → i = j := by decide
  induction m using Nat.strongRecOn generalizing n with
  | ind m ih =>
    have hsmall : m < 16 ↔ n < 16 := by
      have hm : (Nat.toDigits 16 m).length ≤ 1 ↔ m < 16 ^ 1 :=
        Nat.length_toDigits_le_iff (by decide) (by decide)
      have hn : (Nat.toDigits 16 n).length ≤ 1 ↔ n < 16 ^ 1 :=
        Nat.length_toDigits_le_iff (by decide) (by decide)
      rw [h] at hm
      exact hm.symm.trans hn
    by_cases hm : m < 16
    · have hn := hsmall.mp hm
      rw [Nat.toDigits_of_lt_base hm, Nat.toDigits_of_lt_base hn, List.singleton_inj] at h
      exact hdigit m hm n hn h
    · have hn := hsmall.not.mp hm
      rw [Nat.toDigits_of_base_le (by decide) (Nat.not_lt.mp hm),
        Nat.toDigits_of_base_le (by decide) (Nat.not_lt.mp hn)] at h
      obtain ⟨hfront, hlast⟩ := List.append_inj' h rfl
      have hdiv : m / 16 = n / 16 := ih (m / 16) (by omega) hfront
      have hmod : m % 16 = n % 16 :=
        hdigit _ (Nat.mod_lt m (by decide)) _ (Nat.mod_lt n (by decide))
          (List.singleton_inj.mp hlast)
      omega

theorem toDigits_ne_of_mem {c : Char} {n : Nat} (h : c ∈ Nat.toDigits 16 n) : c ≠ '\x7d' := by
  induction n using Nat.strongRecOn with
  | ind n ih =>
    rw [Nat.toDigits_eq_if (by decide)] at h
    split at h
    · rw [List.mem_singleton.mp h]
      exact Nat.digitChar_ne '\x7d' rfl
    · rcases List.mem_append.mp h with h | h
      · exact ih (n / 16) (by omega) h
      · rw [List.mem_singleton.mp h]
        exact Nat.digitChar_ne '\x7d' rfl

/-- **Reading a number.** -/
theorem toString_append_inj {m n : Nat} (hr : StopsAt Char.isDigit r) (hs : StopsAt Char.isDigit s)
    (h : (toString m).toList ++ r = (toString n).toList ++ s) : m = n ∧ r = s := by
  have hdigits : ∀ k : Nat, ∀ c ∈ Nat.toDigits 10 k, c.isDigit = true :=
    fun k c hc => Nat.isDigit_of_mem_toDigits (by decide) (by decide) hc
  simp only [Nat.toString_eq_repr, Nat.toList_repr] at h
  obtain ⟨htext, hrest⟩ := append_inj_of_stopsAt (hdigits m) (hdigits n) hr hs h
  have hvalue := congrArg (Nat.ofDigitChars 10 · 0) htext
  simp only [Nat.ofDigitChars_ten_toDigits] at hvalue
  exact ⟨hvalue, hrest⟩

/-! ### Quoted texts -/

namespace Text

/-- What the character behind a backslash stands for, if it is not the letter of a code point. -/
def unquoted (c : Char) : Char :=
  if c = '0' then '\x00' else unescape c

theorem escapeChar_cases (c : Char) :
    (∃ k, escapeChar '"' c = ['\\', k] ∧ unquoted k = c ∧ k ≠ 'u') ∨
      (escapeChar '"' c = [c] ∧ c ≠ '\\' ∧ c ≠ '"') ∨ escapeChar '"' c = codePointEscape c := by
  rw [escapeChar]
  split
  next h => exact Or.inl ⟨'0', rfl, h.symm, by decide⟩
  split
  next h => exact Or.inl ⟨'t', rfl, h.symm, by decide⟩
  split
  next h => exact Or.inl ⟨'n', rfl, h.symm, by decide⟩
  split
  next h => exact Or.inl ⟨'r', rfl, h.symm, by decide⟩
  split
  next h =>
    rcases h with rfl | rfl
    · exact Or.inl ⟨'\\', rfl, rfl, by decide⟩
    · exact Or.inl ⟨'"', rfl, rfl, by decide⟩
  next h =>
    rw [not_or] at h
    split
    · exact Or.inr (Or.inl ⟨rfl, h⟩)
    · exact Or.inr (Or.inr rfl)

theorem codePointEscape_append_inj {c d : Char}
    (h : codePointEscape c ++ r = codePointEscape d ++ s) : c = d ∧ r = s := by
  simp only [codePointEscape, List.cons_append, List.append_assoc, List.nil_append, List.cons.injEq,
    true_and] at h
  have hdigits : ∀ k : Nat, ∀ c ∈ Nat.toDigits 16 k, (c != '\x7d') = true :=
    fun k c hc => bne_iff_ne.mpr (toDigits_ne_of_mem hc)
  have hstop : ∀ rest, StopsAt (· != '\x7d') ('\x7d' :: rest) := fun _ => stopsAt_cons.mpr rfl
  obtain ⟨hcode, hrest⟩ := append_inj_of_stopsAt (hdigits _) (hdigits _) (hstop _) (hstop _) h
  exact ⟨Char.toNat_inj.mp (toDigits_sixteen_injective hcode), (List.cons.inj hrest).2⟩

/-- **Reading a character** of a quoted text. -/
theorem escapeChar_append_inj {c d : Char} (h : escapeChar '"' c ++ r = escapeChar '"' d ++ s) :
    c = d ∧ r = s := by
  rcases escapeChar_cases c with ⟨k, hc, rfl, hk⟩ | ⟨hc, hne, -⟩ | hc <;>
    rcases escapeChar_cases d with ⟨l, hd, rfl, hl⟩ | ⟨hd, hne', -⟩ | hd <;>
    rw [hc, hd] at h
  · simp only [List.cons_append, List.nil_append, List.cons.injEq, true_and] at h
    exact ⟨by rw [h.1], h.2⟩
  · exact absurd (List.cons.inj h).1.symm hne'
  · exact absurd (List.cons.inj (List.cons.inj h).2).1 hk
  · exact absurd (List.cons.inj h).1 hne
  · simpa using h
  · exact absurd (List.cons.inj h).1 hne
  · exact absurd (List.cons.inj (List.cons.inj h).2).1.symm hl
  · exact absurd (List.cons.inj h).1.symm hne'
  · exact codePointEscape_append_inj h

/-- A character of a quoted text does not begin with the mark. -/
theorem cons_ne_escapeChar_append (c : Char) (rest more : List Char) :
    '"' :: rest ≠ escapeChar '"' c ++ more := by
  intro heq
  rcases escapeChar_cases c with ⟨k, hc, -, -⟩ | ⟨hc, -, hne⟩ | hc <;> rw [hc] at heq
  · exact absurd (List.cons.inj heq).1 (by decide)
  · exact hne (List.cons.inj heq).1.symm
  · exact absurd (List.cons.inj heq).1 (by decide)

/-- **Reading a quoted text.** -/
theorem quoteText_append_inj {x y : String}
    (h : (quoteText x).toList ++ r = (quoteText y).toList ++ s) : x = y ∧ r = s := by
  simp only [quoteText, String.toList_ofList, List.cons_append, List.append_assoc, List.nil_append,
    List.cons.injEq, true_and] at h
  obtain ⟨htext, hrest⟩ := flatMap_append_inj escapeChar_append_inj cons_ne_escapeChar_append h
  exact ⟨String.toList_inj.mp htext, hrest⟩

end Text

end PegGrammar
