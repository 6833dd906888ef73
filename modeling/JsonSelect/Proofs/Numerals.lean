import JsonSelect.Text.Blank
import JsonSelect.Text.DecimalDigit
import JsonSelect.Text.Integer
import Mathlib.Data.List.TakeWhile

/-!
# Blanks and numerals

Stripping takes off what is blank at both ends of a text and nothing else (`Text.strip_pad`,
`Text.strip_eq_self`). An integer is read from a sign and ASCII digits if it has signed 64 bits
(`Text.readInteger?_eq_some`). So the decimal of such an integer reads as this integer
(`Text.readInteger?_toString`), also with blanks around it, which is how brackets write it
(`Text.Writes`).
-/

namespace JsonSelect.Text

section Cut

variable {a : Char} {cs ds : List Char}

theorem ne_of_not_mem (h : a ∉ cs) : ∀ c ∈ cs, (c != a) = true := by
  intro c hc
  rw [bne_iff_ne]
  rintro rfl
  exact h hc

theorem takeWhile_ne_append (h : a ∉ cs) : (cs ++ a :: ds).takeWhile (· != a) = cs := by
  rw [List.takeWhile_append_of_pos (ne_of_not_mem h), List.takeWhile_cons_of_neg (by simp),
    List.append_nil]

theorem dropWhile_ne_append (h : a ∉ cs) : (cs ++ a :: ds).dropWhile (· != a) = a :: ds := by
  rw [List.dropWhile_append_of_pos (ne_of_not_mem h), List.dropWhile_cons_of_neg (by simp)]

theorem dropWhile_ne_eq_nil (h : a ∉ cs) : cs.dropWhile (· != a) = [] :=
  List.dropWhile_eq_nil_iff.2 (ne_of_not_mem h)

theorem not_mem_takeWhile_ne : a ∉ cs.takeWhile (· != a) := by
  intro h
  have hne : (a != a) = true := List.mem_takeWhile_imp (p := (· != a)) h
  exact bne_iff_ne.1 hne rfl

theorem head_of_dropWhile_ne {d : Char} (h : cs.dropWhile (· != a) = d :: ds) : d = a := by
  have hhead := List.head?_dropWhile_not (· != a) cs
  rw [h] at hhead
  exact of_not_not (mt bne_iff_ne.2 (Bool.eq_false_iff.1 hhead))

theorem eq_append_of_dropWhile_ne (h : cs.dropWhile (· != a) = a :: ds) :
    cs = cs.takeWhile (· != a) ++ a :: ds := by
  rw [← h, List.takeWhile_append_dropWhile]

end Cut

section Strip

variable {before cs behind : List Char}

theorem dropWhile_eq_nil_of_blank (h : ∀ c ∈ cs, isBlank c) : cs.dropWhile isBlank = [] :=
  List.dropWhile_eq_nil_iff.2 h

theorem strip_append_of_blank (h : ∀ c ∈ before, isBlank c) : strip (before ++ cs) = strip cs := by
  unfold strip
  rw [List.dropWhile_append_of_pos h]

theorem strip_append_blank (h : ∀ c ∈ behind, isBlank c) : strip (cs ++ behind) = strip cs := by
  have hreverse : ∀ c ∈ behind.reverse, isBlank c := fun c hc => h c (List.mem_reverse.1 hc)
  unfold strip
  rw [List.dropWhile_append]
  split
  · next hempty =>
    rw [dropWhile_eq_nil_of_blank h, List.isEmpty_iff.1 hempty]
  · rw [List.reverse_append, List.dropWhile_append_of_pos hreverse]

theorem strip_pad (hbefore : ∀ c ∈ before, isBlank c) (hbehind : ∀ c ∈ behind, isBlank c) :
    strip (before ++ cs ++ behind) = strip cs := by
  rw [strip_append_blank hbehind, strip_append_of_blank hbefore]

theorem strip_eq_nil (h : ∀ c ∈ cs, isBlank c) : strip cs = [] := by
  unfold strip
  rw [dropWhile_eq_nil_of_blank h]
  rfl

theorem dropWhile_eq_self (h : ∀ c ∈ cs.head?, isBlank c = false) : cs.dropWhile isBlank = cs := by
  cases cs with
  | nil => rfl
  | cons c cs => exact List.dropWhile_cons_of_neg (by simp [h c rfl])

/-- A text that neither begins nor ends with a blank stays as it is. -/
theorem strip_eq_self (hhead : ∀ c ∈ cs.head?, isBlank c = false)
    (hlast : ∀ c ∈ cs.getLast?, isBlank c = false) : strip cs = cs := by
  unfold strip
  rw [dropWhile_eq_self hhead, dropWhile_eq_self (by rwa [List.head?_reverse]),
    List.reverse_reverse]

/-- Only blanks are taken off. -/
theorem exists_strip (cs : List Char) : ∃ before behind, (∀ c ∈ before, isBlank c)
    ∧ (∀ c ∈ behind, isBlank c) ∧ cs = before ++ strip cs ++ behind := by
  refine ⟨cs.takeWhile isBlank, ((cs.dropWhile isBlank).reverse.takeWhile isBlank).reverse,
    fun c hc => List.mem_takeWhile_imp hc,
    fun c hc => List.mem_takeWhile_imp (List.mem_reverse.1 hc), ?_⟩
  rw [strip, List.append_assoc, ← List.reverse_append, List.takeWhile_append_dropWhile,
    List.reverse_reverse, List.takeWhile_append_dropWhile]

end Strip

theorem digitsValue_toDigits (n : Nat) : digitsValue (Nat.toDigits 10 n) = n :=
  Nat.ofDigitChars_ten_toDigits

theorem isDigit_toDigits {n : Nat} : ∀ c ∈ Nat.toDigits 10 n, c.isDigit :=
  fun _ => Nat.isDigit_of_mem_toDigits (by decide) (by decide)

theorem readDigits?_toDigits (n : Nat) : readDigits? (Nat.toDigits 10 n) = some n := by
  have hdigits : (Nat.toDigits 10 n).all Char.isDigit := List.all_eq_true.2 isDigit_toDigits
  simp [readDigits?, hdigits, digitsValue_toDigits]

theorem toList_toString_natCast (n : Nat) : (toString (n : Int)).toList = Nat.toDigits 10 n :=
  Nat.toList_repr

theorem toList_toString_negSucc (n : Nat) :
    (toString (Int.negSucc n)).toList = '-' :: Nat.toDigits 10 (n + 1) := by
  show ("-" ++ (n + 1).repr).toList = _
  rw [String.toList_append, Nat.toList_repr]
  rfl

/-- A text without a sign is read as a row of digits. -/
theorem readInteger?_of_isDigit {cs : List Char} {n : Nat} (h : ∀ c ∈ cs, c.isDigit)
    (hn : readDigits? cs = some n) :
    readInteger? cs = (some (n : Int)).filter inSigned64 := by
  unfold readInteger?
  split
  · exact absurd (h '-' (.head _)) (by decide)
  · exact absurd (h '+' (.head _)) (by decide)
  · rw [hn]
    rfl

theorem readInteger?_toString {n : Int} (h : inSigned64 n) :
    readInteger? (toString n).toList = some n := by
  cases n with
  | ofNat n =>
    have hlist : (toString (Int.ofNat n)).toList = Nat.toDigits 10 n := toList_toString_natCast n
    rw [hlist, readInteger?_of_isDigit isDigit_toDigits (readDigits?_toDigits n)]
    exact Option.filter_eq_some_iff.2 ⟨rfl, h⟩
  | negSucc n =>
    rw [toList_toString_negSucc, readInteger?, readDigits?_toDigits]
    exact Option.filter_eq_some_iff.2 ⟨rfl, h⟩

theorem inSigned64_of_readInteger? {cs : List Char} {n : Int} (h : readInteger? cs = some n) :
    inSigned64 n :=
  (Option.filter_eq_some_iff.1 h).2

/-- The characters of a decimal are digits and a sign. -/
theorem isDigit_or_of_mem_toString {n : Int} {c : Char} (h : c ∈ (toString n).toList) :
    c.isDigit ∨ c = '-' := by
  cases n with
  | ofNat n =>
    have hlist : (toString (Int.ofNat n)).toList = Nat.toDigits 10 n := toList_toString_natCast n
    rw [hlist] at h
    exact .inl (isDigit_toDigits c h)
  | negSucc n =>
    rw [toList_toString_negSucc] at h
    rcases List.mem_cons.1 h with rfl | h
    · exact .inr rfl
    · exact .inl (isDigit_toDigits c h)

theorem isBlank_of_isDigit {c : Char} (h : c.isDigit) : isBlank c = false := by
  have h : 48 ≤ c.toNat ∧ c.toNat ≤ 57 := by simpa [Char.isDigit, UInt32.le_iff_toNat_le] using h
  simp only [isBlank, Bool.or_eq_false_iff, Bool.and_eq_false_iff, decide_eq_false_iff_not,
    beq_eq_false_iff_ne]
  omega

theorem strip_toString (n : Int) : strip (toString n).toList = (toString n).toList := by
  have hblank : ∀ c ∈ (toString n).toList, isBlank c = false := by
    intro c hc
    rcases isDigit_or_of_mem_toString hc with hd | rfl
    · exact isBlank_of_isDigit hd
    · rfl
  exact strip_eq_self (fun c hc => hblank c (List.mem_of_mem_head? hc))
    fun c hc => hblank c (List.mem_of_getLast? hc)

/-- The decimal digits of every script, not only those of ASCII, are no blanks. -/
theorem isBlank_of_isDecimalDigit {c : Char} (h : isDecimalDigit c) : isBlank c = false := by
  have hrows : ∀ first ∈ decimalZeros, ∀ k < 10, isBlank (Char.ofNat (first + k)) = false := by
    decide +kernel
  obtain ⟨first, hfirst, hrange⟩ := List.any_eq_true.1 h
  simp only [Bool.and_eq_true, decide_eq_true_eq] at hrange
  have hc := hrows first hfirst (c.toNat - first) (by omega)
  rwa [Nat.add_sub_cancel' hrange.1, Char.ofNat_toNat] at hc

/-- A row of ASCII digits and the number it stands for. -/
inductive IsNumeral : List Char → Nat → Prop
  | mk {ds : List Char} (hne : ds ≠ []) (hdigits : ∀ c ∈ ds, c.isDigit) :
    IsNumeral ds (Nat.ofDigitChars 10 ds 0)

/-- An optional sign and a row of ASCII digits, and the integer they stand for. -/
inductive IsInteger : List Char → Int → Prop
  | bare {ds : List Char} {n : Nat} (h : IsNumeral ds n) : IsInteger ds n
  | plus {ds : List Char} {n : Nat} (h : IsNumeral ds n) : IsInteger ('+' :: ds) n
  | minus {ds : List Char} {n : Nat} (h : IsNumeral ds n) : IsInteger ('-' :: ds) (-n)

theorem readDigits?_eq_some {cs : List Char} {n : Nat} :
    readDigits? cs = some n ↔ IsNumeral cs n := by
  constructor
  · intro h
    unfold readDigits? at h
    split at h
    · next hcs =>
      rw [Bool.and_eq_true, Bool.not_eq_true', List.isEmpty_eq_false_iff, List.all_eq_true] at hcs
      obtain rfl := Option.some.inj h
      exact .mk hcs.1 hcs.2
    · exact absurd h nofun
  · rintro ⟨hne, hdigits⟩
    refine if_pos ?_
    rw [Bool.and_eq_true, Bool.not_eq_true', List.isEmpty_eq_false_iff, List.all_eq_true]
    exact ⟨hne, hdigits⟩

theorem readInteger?_eq_some {cs : List Char} {n : Int} :
    readInteger? cs = some n ↔ IsInteger cs n ∧ inSigned64 n := by
  constructor
  · intro h
    obtain ⟨hvalue, hn⟩ := Option.filter_eq_some_iff.1 h
    refine ⟨?_, hn⟩
    split at hvalue
    all_goals
      obtain ⟨m, hm, rfl⟩ := Option.map_eq_some_iff.1 hvalue
      obtain ⟨k, hk, hm⟩ := Option.bind_eq_some_iff.1 hm
      obtain rfl := Option.some.inj hm
      have hk := readDigits?_eq_some.1 hk
    · exact .minus hk
    · exact .plus hk
    · exact .bare hk
  · rintro ⟨h, hn⟩
    cases h with
    | @bare ds n h =>
      obtain ⟨hne, hdigits⟩ := id h
      rw [readInteger?_of_isDigit hdigits (readDigits?_eq_some.2 h)]
      exact Option.filter_eq_some_iff.2 ⟨rfl, hn⟩
    | plus h =>
      rw [readInteger?, readDigits?_eq_some.2 h]
      exact Option.filter_eq_some_iff.2 ⟨rfl, hn⟩
    | minus h =>
      rw [readInteger?, readDigits?_eq_some.2 h]
      exact Option.filter_eq_some_iff.2 ⟨rfl, hn⟩

/-- What a text between brackets or colons writes: nothing if it is blank, an integer of signed 64
bits if it is its decimal with blanks around it. -/
inductive Writes : String → Option Int → Prop
  | blank {s : String} (h : allBlank s) : Writes s none
  | decimal {before behind : String} {n : Int} (hbefore : allBlank before) (hn : inSigned64 n)
      (hbehind : allBlank behind) : Writes (before ++ toString n ++ behind) (some n)

theorem readInteger?_strip_decimal {before behind : String} {n : Int} (hbefore : allBlank before)
    (hn : inSigned64 n) (hbehind : allBlank behind) :
    readInteger? (strip (before ++ toString n ++ behind).toList) = some n := by
  rw [String.toList_append, String.toList_append,
    strip_pad (List.all_eq_true.1 hbefore) (List.all_eq_true.1 hbehind), strip_toString,
    readInteger?_toString hn]

theorem Writes.isBlank_or {s : String} {n : Option Int} (h : Writes s n) {c : Char}
    (hc : c ∈ s.toList) : isBlank c ∨ c.isDigit ∨ c = '-' := by
  cases h with
  | blank h => exact .inl (List.all_eq_true.1 h c hc)
  | decimal hbefore hn hbehind =>
    rw [String.toList_append, String.toList_append, List.mem_append, List.mem_append] at hc
    rcases hc with (hc | hc) | hc
    · exact .inl (List.all_eq_true.1 hbefore c hc)
    · exact .inr (isDigit_or_of_mem_toString hc)
    · exact .inl (List.all_eq_true.1 hbehind c hc)

end JsonSelect.Text
