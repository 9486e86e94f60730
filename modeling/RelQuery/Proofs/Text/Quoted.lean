import RelQuery.Proofs.Text.Told
import RelQuery.Text.Quoted

/-!
# Quoted texts are told

A character that is escaped starts with a backslash, and what stands behind the backslash tells which
it is: one of a few codes, or a code point in hexadecimal between braces.  So a quoted text is told up
to its closing quote.
-/

namespace RelQuery.Text

/-! ## Hexadecimal digits -/

theorem digitChar_inj : ∀ i < 16, ∀ j < 16, i.digitChar = j.digitChar → i = j := by
  decide

theorem digitChar_ne_brace : ∀ i < 16, i.digitChar ≠ '\x7d' := by
  decide

theorem hexDigits_inj {m n : Nat} (h : Nat.toDigits 16 m = Nat.toDigits 16 n) : m = n := by
  have hbase : 1 < 16 := by decide
  induction m using Nat.strongRecOn generalizing n with
  | ind m ih =>
      rw [Nat.toDigits_eq_if hbase, Nat.toDigits_eq_if (n := n) hbase] at h
      split_ifs at h with hm hn hn
      · exact digitChar_inj m hm n hn (List.singleton_inj.mp h)
      · simpa using congrArg List.length h
      · simpa using congrArg List.length h
      · obtain ⟨hfront, hlast⟩ := List.append_inj' h rfl
        have hquotient := ih (m / 16) (by omega) hfront
        have hdigit := digitChar_inj (m % 16) (by omega) (n % 16) (by omega)
          (List.singleton_inj.mp hlast)
        omega

theorem ne_brace_of_mem_hexDigits {n : Nat} {c : Char} (h : c ∈ Nat.toDigits 16 n) :
    c ≠ '\x7d' := by
  have hbase : 1 < 16 := by decide
  induction n using Nat.strongRecOn with
  | ind n ih =>
      rw [Nat.toDigits_eq_if hbase] at h
      split_ifs at h with hn
      · rw [List.mem_singleton.mp h]
        exact digitChar_ne_brace n hn
      · rcases List.mem_append.mp h with h | h
        · exact ih (n / 16) (by omega) h
        · rw [List.mem_singleton.mp h]
          exact digitChar_ne_brace (n % 16) (by omega)

/-! ## Escapes -/

/-- The character for which a backslash and a code of one character stand. -/
def shortEscape : Char → Char
  | 'n' => '\n'
  | 't' => '\t'
  | 'r' => '\r'
  | '0' => '\x00'
  | c => c

theorem escapeChar_cases (c : Char) :
    (∃ code, escapeChar '"' c = ['\\', code] ∧ code ≠ 'u' ∧ shortEscape code = c) ∨
      escapeChar '"' c = '\\' :: 'u' :: '\x7b' :: (Nat.toDigits 16 c.toNat ++ ['\x7d']) ∨
      escapeChar '"' c = [c] ∧ c ≠ '"' ∧ c ≠ '\\' := by
  unfold escapeChar
  split_ifs with hmark hline htab hreturn hnull hhidden
  · rcases hmark with rfl | rfl <;> exact .inl ⟨_, rfl, by decide, rfl⟩
  · exact .inl ⟨'n', rfl, by decide, hline.symm⟩
  · exact .inl ⟨'t', rfl, by decide, htab.symm⟩
  · exact .inl ⟨'r', rfl, by decide, hreturn.symm⟩
  · exact .inl ⟨'0', rfl, by decide, hnull.symm⟩
  · exact .inr (.inl rfl)
  · exact .inr (.inr ⟨rfl, not_or.mp hmark⟩)

theorem escapeChar_append_inj {c d : Char} {r s : List Char}
    (h : escapeChar '"' c ++ r = escapeChar '"' d ++ s) : c = d ∧ r = s := by
  rcases escapeChar_cases c with ⟨code, hc, hcode, rfl⟩ | hc | ⟨hc, -, hplain⟩ <;>
    rcases escapeChar_cases d with ⟨code', hd, hcode', rfl⟩ | hd | ⟨hd, -, hplain'⟩ <;>
    simp only [hc, hd, List.cons_append, List.nil_append, List.append_assoc, List.cons.injEq,
      true_and] at h
  · exact ⟨congrArg shortEscape h.1, h.2⟩
  · exact absurd h.1 hcode
  · exact absurd h.1.symm hplain'
  · exact absurd h.1.symm hcode'
  · -- Two code points: the closing brace ends both rows of digits.
    have hdigits (n : Nat) : ∀ c ∈ Nat.toDigits 16 n, (c != '\x7d') = true :=
      fun c hc => bne_iff_ne.mpr (ne_brace_of_mem_hexDigits hc)
    obtain ⟨hcode, hrest⟩ := append_inj_of_ends (hdigits _) (hdigits _) (ends_cons.mpr (by decide))
      (ends_cons.mpr (by decide)) h
    exact ⟨Char.toNat_inj.mp (hexDigits_inj hcode), (List.cons.inj hrest).2⟩
  · exact absurd h.1.symm hplain'
  · exact absurd h.1 hplain
  · exact absurd h.1 hplain
  · exact h

theorem escapeChar_append_ne_quote (c : Char) (r s : List Char) :
    escapeChar '"' c ++ r ≠ '"' :: s := by
  rcases escapeChar_cases c with ⟨code, hc, -⟩ | hc | ⟨hc, hquote, -⟩
  · simp [hc]
  · simp [hc]
  · simp [hc, hquote]

theorem quoteString_append (value : String) (r : List Char) :
    (quoteString value).toList ++ r =
      '"' :: (value.toList.flatMap (escapeChar '"') ++ '"' :: r) := by
  simp [quoteString]

theorem told_quoteString (value : String) :
    Told (fun _ => True) (fun value => (quoteString value).toList) (fun _ => True) value := by
  intro other r s _ _ _ heq
  simp only [quoteString_append, List.cons.injEq, true_and] at heq
  obtain ⟨hvalue, hrest⟩ :=
    escaped_append_inj escapeChar_append_inj escapeChar_append_ne_quote heq
  exact ⟨String.toList_inj.mp hvalue, hrest⟩

end RelQuery.Text
