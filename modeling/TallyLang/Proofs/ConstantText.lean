/-
The shape of a constant in the emitted code.

Whatever number a constant stands for, its text is either a decimal with exactly
six digits after the point or a pattern of sixteen hexadecimal digits.  So a
constant is always one word, never looks like a register, and cannot break the line
that it stands in.
-/
import TallyLang.Binary64.Fixed
import TallyLang.Token.Piece

namespace TallyLang

/-- A hexadecimal digit, with capital letters. -/
def isHexDigit (c : Char) : Bool := isDigit c || decide ('A' ≤ c ∧ c ≤ 'F')

/-- The two ways to write a constant. -/
inductive IsConstant : String → Prop
  | decimal {sign whole fraction : List Char} (hsign : sign = [] ∨ sign = ['-'])
      (hne : whole ≠ []) (hwhole : ∀ c ∈ whole, isDigit c = true)
      (hplaces : fraction.length = 6) (hfraction : ∀ c ∈ fraction, isDigit c = true) :
      IsConstant (String.ofList (sign ++ whole ++ '.' :: fraction))
  | pattern {digits : List Char} (hlength : digits.length = 16)
      (hdigits : ∀ c ∈ digits, isHexDigit c = true) :
      IsConstant ("0x" ++ String.ofList digits)

/-- A character that may stand in a constant. -/
def isConstantChar (c : Char) : Bool := isHexDigit c || c = '-' || c = '.' || c = 'x'

theorem IsConstant.ne_nil {text : String} (h : IsConstant text) : text.toList ≠ [] := by
  cases h with
  | decimal => simp
  | pattern => simp

theorem IsConstant.isConstantChar_of_mem {text : String} (h : IsConstant text) :
    ∀ c ∈ text.toList, isConstantChar c = true := by
  have hdigit : ∀ c, isDigit c = true → isConstantChar c = true := by
    intro c hc
    simp [isConstantChar, isHexDigit, hc]
  intro c hc
  cases h with
  | decimal hsign hne hwhole hplaces hfraction =>
      simp only [String.toList_ofList, List.mem_append, List.mem_cons] at hc
      rcases hc with (hs | hw) | rfl | hf
      · rcases hsign with rfl | rfl
        · cases hs
        · rw [List.mem_singleton.mp hs]
          rfl
      · exact hdigit c (hwhole c hw)
      · rfl
      · exact hdigit c (hfraction c hf)
  | pattern hlength hdigits =>
      rw [String.toList_append] at hc
      rcases List.mem_append.mp hc with hx | hd
      · have hall : "0x".toList.all isConstantChar = true := by decide
        exact List.all_eq_true.mp hall c hx
      · rw [String.toList_ofList] at hd
        simp [isConstantChar, hdigits c hd]

/-! ### Digits -/

theorem isDigit_of_mem_toDigits {n : Nat} {c : Char} (h : c ∈ Nat.toDigits 10 n) :
    isDigit c = true := by
  have hc := Nat.isDigit_of_mem_toDigits (by decide) (by decide) h
  simpa [isDigit, Char.isDigit, Char.le_def] using hc

/-- Numbers with the same digits are the same. -/
theorem toString_injective {m n : Nat} (h : toString m = toString n) : m = n := by
  rw [Nat.toString_eq_ofList_toDigits, Nat.toString_eq_ofList_toDigits, String.ofList_inj] at h
  rw [← Nat.ofDigitChars_toDigits (b := 10) (n := m) (by decide) (by decide), h,
    Nat.ofDigitChars_toDigits (by decide) (by decide)]

namespace Decimal

theorem isDigit_of_mem_padded {width n : Nat} {c : Char} (h : c ∈ padded width n) :
    isDigit c = true := by
  unfold padded at h
  rcases List.mem_append.mp h with hzero | hdigit
  · rw [(List.mem_replicate.mp hzero).2]
    rfl
  · exact isDigit_of_mem_toDigits hdigit

theorem le_length_padded (width n : Nat) : width ≤ (padded width n).length := by
  unfold padded
  simp only [List.length_append, List.length_replicate]
  omega

/-- A number with a point has digits before it and as many as wanted after it. -/
theorem pointed_shape (n : Nat) {places : Nat} (hpos : places ≠ 0) :
    ∃ whole fraction : List Char, pointed n places = whole ++ '.' :: fraction ∧
      whole ++ fraction = padded (places + 1) n ∧
      whole ≠ [] ∧ (∀ c ∈ whole, isDigit c = true) ∧
      fraction.length = places ∧ ∀ c ∈ fraction, isDigit c = true := by
  have hlen := le_length_padded (places + 1) n
  unfold pointed
  simp only
  rw [if_neg hpos]
  refine ⟨_, _, rfl, List.take_append_drop _ _, ?_, ?_, ?_, ?_⟩
  · intro hnil
    have := congrArg List.length hnil
    rw [List.length_take, List.length_nil] at this
    omega
  · intro c hc
    exact isDigit_of_mem_padded (List.mem_of_mem_take hc)
  · rw [List.length_drop]
    omega
  · intro c hc
    exact isDigit_of_mem_padded (List.mem_of_mem_drop hc)

end Decimal

/-! ### Patterns -/

theorem exists_digitChar_of_mem_toDigits {b : Nat} (hb : 1 < b) (n : Nat) :
    ∀ c ∈ Nat.toDigits b n, ∃ d, d < b ∧ c = Nat.digitChar d := by
  induction n using Nat.strongRecOn with
  | _ n ih =>
      intro c hc
      by_cases hn : n < b
      · rw [Nat.toDigits_of_lt_base hn, List.mem_singleton] at hc
        exact ⟨n, hn, hc⟩
      · have hle : b ≤ n := Nat.le_of_not_lt hn
        rw [Nat.toDigits_of_base_le hb hle] at hc
        rcases List.mem_append.mp hc with hhigh | hlow
        · exact ih (n / b) (Nat.div_lt_self (by omega) hb) c hhigh
        · rw [List.mem_singleton] at hlow
          exact ⟨n % b, Nat.mod_lt n (by omega), hlow⟩

private theorem isHexDigit_digitChar :
    ∀ d, d < 16 → isHexDigit (Nat.digitChar d).toUpper = true := by
  decide

namespace Binary64

/-- A pattern has sixteen digits, because it has sixty-four bits. -/
theorem length_hexDigits (x : Binary64) : x.hexDigits.length = 16 := by
  have hbits : x.bits.toNat < 16 ^ 16 := x.bits.toNat_lt
  have hle : (Nat.toDigits 16 x.bits.toNat).length ≤ 16 :=
    (Nat.length_toDigits_le_iff (by decide) (by decide)).mpr hbits
  unfold hexDigits
  simp only [List.length_append, List.length_replicate]
  omega

theorem isHexDigit_of_mem_hexDigits (x : Binary64) :
    ∀ c ∈ x.hexDigits.map Char.toUpper, isHexDigit c = true := by
  intro c hc
  obtain ⟨c', hc', rfl⟩ := List.mem_map.mp hc
  unfold hexDigits at hc'
  rcases List.mem_append.mp hc' with hzero | hdigit
  · rw [(List.mem_replicate.mp hzero).2]
    rfl
  · obtain ⟨d, hd, rfl⟩ := exists_digitChar_of_mem_toDigits (by decide) _ c' hdigit
    exact isHexDigit_digitChar d hd

/-- **Every constant has one of the two shapes.** -/
theorem isConstant_constantText (x : Binary64) : IsConstant x.constantText := by
  unfold constantText
  split
  · obtain ⟨whole, fraction, heq, -, hne, hwhole, hplaces, hfraction⟩ :=
      Decimal.pointed_shape x.millionths (by decide : places ≠ 0)
    rw [heq]
    cases x.negative with
    | false => exact IsConstant.decimal (Or.inl rfl) hne hwhole hplaces hfraction
    | true =>
        have := IsConstant.decimal (Or.inr rfl) hne hwhole hplaces hfraction
        simpa using this
  · refine IsConstant.pattern ?_ (isHexDigit_of_mem_hexDigits x)
    rw [List.length_map]
    exact length_hexDigits x

end Binary64

end TallyLang
