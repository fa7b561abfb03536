import WireShape.Json.Reader
import WireShape.Json.Writer

/-!
# Text in quotation marks is read back

A character is written as itself or as an escape, and reading the text gives the character again.
So the text in quotation marks determines what has been written, whatever follows.

* `Json.readEscapedUnit?_unit`, `Json.readEscapedUnit?_pair`: escapes by numbers.
* `Json.readText?_quoted`: text in quotation marks is read back.
* `Json.quote_cancel`: equal quotations are quotations of the same text.
-/

namespace WireShape.Json

variable {c : Char} {cs ds r r' rest : List Char} {n k fuel : Nat} {s t : String}

/-! ## Escapes by numbers -/

theorem hexValue?_digitChar (h : k < 16) : Text.hexValue? k.digitChar = some k := by
  have hall : ∀ k < 16, Text.hexValue? k.digitChar = some k := by decide
  exact hall k h

/-- Four hexadecimal digits of a unit of sixteen bits. -/
theorem hex_unit (hn : n < 0x10000) : Text.hex 4 n = [(n / 4096).digitChar,
    (n / 256 % 16).digitChar, (n / 16 % 16).digitChar, (n % 16).digitChar] := by
  have hbase : 1 < 16 := by decide
  have hstep : ∀ m, 16 ≤ m → Nat.toDigits 16 m = Nat.toDigits 16 (m / 16) ++ [(m % 16).digitChar] :=
    fun m hm => Nat.toDigits_of_base_le hbase hm
  have hlast : ∀ m, m < 16 → Nat.toDigits 16 m = [m.digitChar] :=
    fun m hm => Nat.toDigits_of_lt_base hm
  have hdiv : n / 16 / 16 = n / 256 ∧ n / 256 / 16 = n / 4096 := by omega
  have hzero : Nat.digitChar 0 = '0' := rfl
  unfold Text.hex
  rcases Nat.lt_or_ge n 16 with hlt | hge
  · have h₁ : n / 16 % 16 = 0 := by omega
    have h₂ : n / 256 % 16 = 0 := by omega
    have h₃ : n / 4096 = 0 := by omega
    have h₄ : n % 16 = n := by omega
    rw [hlast n hlt, h₁, h₂, h₃, h₄, hzero]
    rfl
  rcases Nat.lt_or_ge n 256 with hlt | hge'
  · have h₁ : n / 16 % 16 = n / 16 := by omega
    have h₂ : n / 256 % 16 = 0 := by omega
    have h₃ : n / 4096 = 0 := by omega
    rw [hstep n hge, hlast (n / 16) (by omega), h₁, h₂, h₃, hzero]
    rfl
  rcases Nat.lt_or_ge n 4096 with hlt | hge''
  · have h₁ : n / 256 % 16 = n / 256 := by omega
    have h₂ : n / 4096 = 0 := by omega
    rw [hstep n hge, hstep (n / 16) (by omega), hdiv.1, hlast (n / 256) (by omega), h₁, h₂, hzero]
    rfl
  · rw [hstep n hge, hstep (n / 16) (by omega), hdiv.1, hstep (n / 256) (by omega), hdiv.2,
      hlast (n / 4096) (by omega)]
    rfl

theorem readUnit?_hex (hn : n < 0x10000) : readUnit? (Text.hex 4 n ++ rest) = some (n, rest) := by
  have hdigits : (((n / 4096) * 16 + n / 256 % 16) * 16 + n / 16 % 16) * 16 + n % 16 = n := by omega
  rw [hex_unit hn]
  change (do
    let a ← Text.hexValue? _
    _) = _
  rw [hexValue?_digitChar (by omega), hexValue?_digitChar (by omega), hexValue?_digitChar (by omega),
    hexValue?_digitChar (by omega)]
  change some (_, rest) = _
  rw [hdigits]

/-- A unit that is no surrogate is the character of that number. -/
theorem readEscapedUnit?_unit (hc : c.toNat < 0x10000) :
    readEscapedUnit? (Text.hex 4 c.toNat ++ rest) = some (c, rest) := by
  have hvalid : c.toNat < 0xd800 ∨ 0xdfff < c.toNat ∧ c.toNat < 0x110000 := c.valid
  have hhigh : isHighSurrogate c.toNat = false := by
    unfold isHighSurrogate
    rw [Bool.and_eq_false_iff, decide_eq_false_iff_not, decide_eq_false_iff_not]
    omega
  have hlow : isLowSurrogate c.toNat = false := by
    unfold isLowSurrogate
    rw [Bool.and_eq_false_iff, decide_eq_false_iff_not, decide_eq_false_iff_not]
    omega
  have hunit : charOfUnit c.toNat = c := by
    unfold charOfUnit
    rw [hhigh, hlow]
    exact Char.ofNat_toNat c
  refine Option.bind_eq_some_iff.mpr ⟨(c.toNat, rest), readUnit?_hex hc, ?_⟩
  dsimp only
  rw [hhigh, hunit]
  rfl

/-- After the start of an escape by a number come its digits. -/
theorem after?_escapeUnit : after? "\\u" (escapeUnit n ++ rest) = some (Text.hex 4 n ++ rest) := by
  have hlength : "\\u".length = 2 := by decide
  simp [after?, escapeUnit, Text.backslash, hlength]

/-- Two surrogates that belong together are the character beyond sixteen bits. -/
theorem readEscapedUnit?_pair (hc : 0x10000 ≤ c.toNat) :
    readEscapedUnit? (Text.hex 4 (0xd800 + (c.toNat - 0x10000) / 0x400) ++
      (escapeUnit (0xdc00 + (c.toNat - 0x10000) % 0x400) ++ rest)) = some (c, rest) := by
  have hvalid : c.toNat < 0xd800 ∨ 0xdfff < c.toNat ∧ c.toNat < 0x110000 := c.valid
  generalize hhighUnit : 0xd800 + (c.toNat - 0x10000) / 0x400 = high
  generalize hlowUnit : 0xdc00 + (c.toNat - 0x10000) % 0x400 = low
  have hhigh : isHighSurrogate high = true := by
    unfold isHighSurrogate
    rw [Bool.and_eq_true, decide_eq_true_iff, decide_eq_true_iff]
    omega
  have hlow : isLowSurrogate low = true := by
    unfold isLowSurrogate
    rw [Bool.and_eq_true, decide_eq_true_iff, decide_eq_true_iff]
    omega
  have hpair : charOfPair high low = c := by
    have hsum : 0x10000 + (high - 0xd800) * 0x400 + (low - 0xdc00) = c.toNat := by omega
    unfold charOfPair
    rw [hsum]
    exact Char.ofNat_toNat c
  have hafter : (after? "\\u" (escapeUnit low ++ rest)).bind readUnit? = some (low, rest) := by
    have hlow : low < 0x10000 := by omega
    rw [after?_escapeUnit, Option.bind_some, readUnit?_hex hlow]
  refine Option.bind_eq_some_iff.mpr ⟨(high, _), readUnit?_hex (by omega), ?_⟩
  dsimp only
  rw [if_pos hhigh, hafter]
  dsimp only
  rw [if_pos hlow, hpair]
  rfl

/-! ## Characters -/

/-- What a character is written as is read as that character. -/
theorem readText?_escapeChar (h : readText? fuel rest = some (cs, r)) :
    readText? (fuel + 1) (escapeChar c ++ rest) = some (c :: cs, r) := by
  have hof : ∀ n, c.toNat = n → c = Char.ofNat n := fun n hn => by rw [← hn, Char.ofNat_toNat]
  have hslash : Text.backslash = '\x5c' := rfl
  have hnot : Text.backslash ≠ '\x22' := by decide
  have hletter : ∀ e, e ≠ 'u' → escapeLetter? e = some c →
      readText? (fuel + 1) (Text.backslash :: e :: rest) = some (c :: cs, r) := by
    intro e hne he
    unfold readText?
    rw [if_neg hnot, if_pos hslash]
    split
    · rename_i heq
      cases heq
      exact absurd rfl hne
    · rename_i heq
      cases heq
      exact Option.bind_eq_some_iff.mpr ⟨(c, rest), by rw [he]; rfl,
        Option.bind_eq_some_iff.mpr ⟨(cs, r), h, rfl⟩⟩
    · rename_i heq
      cases heq
  have hunit : ∀ {n : Nat} {tail : List Char}, readEscapedUnit? (Text.hex 4 n ++ tail) =
      some (c, rest) → readText? (fuel + 1) (escapeUnit n ++ tail) = some (c :: cs, r) := by
    intro n tail hread
    rw [escapeUnit, List.cons_append, List.cons_append]
    unfold readText?
    rw [if_neg hnot, if_pos hslash]
    exact Option.bind_eq_some_iff.mpr ⟨(c, rest), hread,
      Option.bind_eq_some_iff.mpr ⟨(cs, r), h, rfl⟩⟩
  unfold escapeChar
  split
  · rename_i hmark
    rcases Bool.or_eq_true_iff.mp hmark with hquote | hother
    · obtain rfl := of_decide_eq_true hquote
      exact hletter _ (by decide) rfl
    · obtain rfl := of_decide_eq_true hother
      exact hletter _ (by decide) rfl
  rename_i hmark
  split
  · rename_i hn
    obtain rfl := hof 10 hn
    exact hletter 'n' (by decide) rfl
  split
  · rename_i hn
    obtain rfl := hof 13 hn
    exact hletter 'r' (by decide) rfl
  split
  · rename_i hn
    obtain rfl := hof 9 hn
    exact hletter 't' (by decide) rfl
  split
  · rename_i hn
    obtain rfl := hof 8 hn
    exact hletter 'b' (by decide) rfl
  split
  · rename_i hn
    obtain rfl := hof 12 hn
    exact hletter 'f' (by decide) rfl
  split
  · rename_i hprinted
    have hprinted := of_decide_eq_true (Bool.and_eq_true_iff.mp hprinted).1
    obtain ⟨hquote, hother⟩ : c ≠ Text.doubleQuote ∧ c ≠ Text.backslash := by simpa using hmark
    rw [List.singleton_append]
    unfold readText?
    rw [if_neg (show c ≠ '\x22' from hquote), if_neg (show c ≠ '\x5c' from hother),
      if_neg (by omega)]
    exact Option.bind_eq_some_iff.mpr ⟨(cs, r), h, rfl⟩
  split
  · rename_i hc
    exact hunit (readEscapedUnit?_unit hc)
  · rename_i hc
    dsimp only
    rw [List.append_assoc]
    exact hunit (readEscapedUnit?_pair (Nat.le_of_not_lt hc))

/-! ## Text -/

/-- Text in quotation marks is read back. -/
theorem readText?_quoted (hfuel : cs.length < fuel) :
    readText? fuel (cs.flatMap escapeChar ++ Text.doubleQuote :: r) = some (cs, r) := by
  induction cs generalizing fuel with
  | nil =>
    obtain ⟨fuel, rfl⟩ : ∃ n, fuel = n + 1 := Nat.exists_eq_add_one.mpr hfuel
    rfl
  | cons c cs ih =>
    obtain ⟨fuel, rfl⟩ : ∃ n, fuel = n + 1 := Nat.exists_eq_add_one.mpr (Nat.zero_lt_of_lt hfuel)
    rw [List.flatMap_cons, List.append_assoc]
    exact readText?_escapeChar (ih (Nat.lt_of_succ_lt_succ hfuel))

theorem quote_toList : (quote s).toList =
    Text.doubleQuote :: (s.toList.flatMap escapeChar ++ [Text.doubleQuote]) := by
  unfold quote
  rw [String.toList_ofList]
  rfl

/-- Where two quotations with something after them are equal, they are quotations of the same text,
and what follows is the same. -/
theorem quote_cancel (h : (quote s).toList ++ r = (quote t).toList ++ r') : s = t ∧ r = r' := by
  have hread : ∀ (s : String) (r : List Char) (fuel : Nat), s.toList.length < fuel →
      readText? fuel ((quote s).toList ++ r).tail = some (s.toList, r) := by
    intro s r fuel hfuel
    rw [quote_toList, List.cons_append, List.tail_cons, List.append_assoc, List.singleton_append]
    exact readText?_quoted hfuel
  have hs := hread s r _ (Nat.lt_succ_of_le (Nat.le_max_left s.toList.length t.toList.length))
  have ht := hread t r' _ (Nat.lt_succ_of_le (Nat.le_max_right s.toList.length t.toList.length))
  rw [← h, hs] at ht
  obtain ⟨htext, hrest⟩ := Prod.mk.inj (Option.some.inj ht)
  exact ⟨String.toList_inj.mp htext, hrest⟩

end WireShape.Json
